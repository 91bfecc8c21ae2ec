import ViewBridge.FilterName
/-!
# Chains of filters

A value is piped through filters that stand between bars. The translation of filter names searches for names behind
bars; what it makes of a chain is the value with each filter translated for itself, whatever else stands in the
chain: filters with arguments, empty segments, names that are none.

Results:
* `segment_of_not_mem_table`: what is not in the table stays.
* `translate_chain`: a chain is translated filter by filter, and a translated chain stays.
-/
namespace ViewBridge.FilterName

variable {d : Dialect} {s : Chars}

/-- What is not a name of the table stays. -/
theorem segment_of_not_mem_table (d : Dialect) (h : ∀ entry ∈ table, entry.1.toList ≠ s) : segment d s = s := by
  have hnone : table.find? (fun entry => entry.1.toList == s) = none :=
    List.find?_eq_none.2 fun entry hentry hs => h entry hentry (eq_of_beq hs)
  rw [segment, target?, hnone]
  rfl

/-- A segment stays, or is a name of the table. -/
theorem segment_cases (d : Dialect) (s : Chars) :
    segment d s = s ∨ ∃ entry ∈ table, entry.1.toList = s ∧ segment d s = segment d entry.1.toList := by
  by_cases h : ∃ entry ∈ table, entry.1.toList = s
  · obtain ⟨entry, hentry, rfl⟩ := h
    exact .inr ⟨entry, hentry, rfl, rfl⟩
  · exact .inl (segment_of_not_mem_table d fun entry hentry hs => h ⟨entry, hentry, hs⟩)

/-- What the names of the table become has no bar and stays. -/
theorem segment_table (d : Dialect) {entry : String × String} (h : entry ∈ table) :
    '|' ∉ segment d entry.1.toList ∧ segment d (segment d entry.1.toList) = segment d entry.1.toList := by
  revert h
  revert entry
  cases d <;> decide +kernel

theorem segment_segment (d : Dialect) (s : Chars) : segment d (segment d s) = segment d s := by
  rcases segment_cases d s with hs | ⟨entry, hentry, rfl, -⟩
  · rw [hs, hs]
  · exact (segment_table d hentry).2

theorem not_mem_segment (d : Dialect) (h : '|' ∉ s) : '|' ∉ segment d s := by
  rcases segment_cases d s with hs | ⟨entry, hentry, rfl, -⟩
  · rwa [hs]
  · exact (segment_table d hentry).1

/-- A chain is the value and the filters behind its bars. -/
theorem exists_chain (e : Chars) :
    ∃ value filters, e = Text.join ['|'] (value :: filters) ∧ ∀ s ∈ value :: filters, '|' ∉ s := by
  cases hsplit : Text.splitOn ['|'] e with
  | nil => exact absurd hsplit (Text.splitOn_ne_nil _ _)
  | cons value filters =>
    refine ⟨value, filters, ?_, fun s hs => Text.not_mem_of_mem_splitOn (hsplit ▸ hs)⟩
    rw [← hsplit, Text.join_splitOn]

/-- A translated chain is not changed by translating it again. -/
theorem translate_translate_chain (d : Dialect) (e : Chars) : translate d (translate d e) = translate d e := by
  obtain ⟨value, filters, rfl, h⟩ := exists_chain e
  have hsegments : ∀ s ∈ value :: filters.map (segment d), '|' ∉ s := by
    rw [List.forall_mem_cons] at h ⊢
    refine ⟨h.1, fun s hs => ?_⟩
    obtain ⟨filter, hfilter, rfl⟩ := List.mem_map.1 hs
    exact not_mem_segment d (h.2 filter hfilter)
  rw [translate_join d h, translate_join d hsegments, List.map_map]
  congr 3
  exact funext fun s => segment_segment d s

/-- Filter names are translated segment by segment:

* an expression is its segments with bars between them, and the translation leaves the first one and replaces each
  other one by the name it stands for, if it is exactly a name of the table;
* so the text in front of the first bar stays, and so does each segment that is not exactly a name of the table, in
  particular one with a character that names do not have, such as a name with arguments or spaces;
* translating again changes nothing. -/
theorem translate_chain (d : Dialect) (e : Chars) :
    translate d e = bySegments d e ∧
    (∀ value filters, (∀ s ∈ value :: filters, '|' ∉ s) →
      translate d (Text.join ['|'] (value :: filters)) = Text.join ['|'] (value :: filters.map (segment d))) ∧
    (∀ value rest, '|' ∉ value → translate d (value ++ rest) = value ++ translate d rest) ∧
    (∀ s, (∀ entry ∈ table, entry.1.toList ≠ s) → segment d s = s) ∧
    (∀ s, (∃ c ∈ s, Text.isNameChar c = false) → segment d s = s) ∧
    translate d (translate d e) = translate d e := by
  refine ⟨translate_eq_bySegments d e, fun _ _ h => translate_join d h, fun _ rest h => translate_append h rest,
    fun _ h => segment_of_not_mem_table d h, fun s h => segment_eq_self fun hname => ?_,
    translate_translate_chain d e⟩
  obtain ⟨c, hc, hother⟩ := h
  exact Bool.false_ne_true (hother.symm.trans (hname.2 c hc))

/-- Names in front of a bar, behind two of them, with arguments and with more behind them. -/
example : translate .minijinja "count|e||json|date('Y')|count_rows|sizeof".toList =
    "count|escape||tojson|date('Y')|count_rows|length".toList := by decide +kernel

end ViewBridge.FilterName
