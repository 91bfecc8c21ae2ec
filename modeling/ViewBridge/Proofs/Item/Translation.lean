import Mathlib.Data.List.Forall2
import ViewBridge.Proofs.Item.Reading
/-!
# Translating items one by one

The pipeline goes over a whole template eight times, and yet what becomes of a template of items is what
becomes of each item, one after the other, with one loop depth threaded through. The early passes put the
blocks on the shelf and leave text and tags alone; the late passes read each item where it stands; emptying
the shelf gives each block its place.

Results:
* `run_pass_items`: a pass over a kind of blocks, item by item.
* `runAll_latePasses_items`: the late passes, item by item.
* `restore_items`: emptying the shelf, item by item.
* `translate_items`: the whole translator.
-/
namespace ViewBridge.Translator

/-! ## Parking items -/

/-- The body of a block of the given kind. -/
def Item.body? (k : BlockKind) : Item → Option Chars
  | .block j body => if j = k then some body else none
  | _ => none

theorem Item.body?_eq_some_iff {k : BlockKind} {i : Item} {body : Chars} :
    i.body? k = some body ↔ i = .block k body := by
  cases i with
  | block j b =>
    rw [body?, Item.block.injEq]
    split <;> simp_all
  | _ => simp [body?]

/-- The items with text for all blocks of a kind, each the placeholder of what the block becomes. -/
def park (t : Translator) (k : BlockKind) : Progress → List Item → List Item × Progress
  | p, [] => ([], p)
  | p, i :: is =>
    match i.body? k with
    | some body =>
      let rest := park t k (p.shelving (k.output t body)) is
      (.text (Shelf.placeholder p.shelf.length (k.output t body)) :: rest.1, rest.2)
    | none =>
      let rest := park t k p is
      (i :: rest.1, rest.2)

/-- An item as it stands behind early passes: as it was, or as a placeholder for what it becomes. -/
inductive Parked (t : Translator) (shelf : List Chars) : Item → Item → Prop where
  | same (i : Item) : Parked t shelf i i
  | placed {k : BlockKind} {body : Chars} {n : Nat} (h : shelf[n]? = some (k.output t body)) :
    Parked t shelf (.block k body) (.text (Shelf.placeholder n (k.output t body)))

namespace Parked

variable {t : Translator} {shelf : List Chars} {i j l : Item}

theorem mono {shelf' : List Chars} (hshelf : shelf <+: shelf') (h : Parked t shelf i j) : Parked t shelf' i j := by
  cases h with
  | same => exact .same i
  | placed h =>
    obtain ⟨more, rfl⟩ := hshelf
    exact .placed (by rw [List.getElem?_append_left (List.getElem?_eq_some_iff.1 h).1, h])

theorem trans (h : Parked t shelf i j) (h' : Parked t shelf j l) : Parked t shelf i l := by
  cases h with
  | same => exact h'
  | placed h => cases h'; exact .placed h

theorem wellFormed (h : Parked t shelf i j) (hi : i.WellFormed) : j.WellFormed := by
  cases h with
  | same => exact hi
  | placed h =>
    have hbrace {c : Char} (hc : Text.isDigit c = false) (hne : c ≠ Shelf.opening ∧ c ≠ Shelf.closing ∧ c ≠ '\n')
        (n : Nat) (body : Chars) : c ∉ Shelf.placeholder n body := by
      intro hm
      rcases Shelf.mem_placeholder hm with h | h | h | h <;> simp_all
    exact ⟨hbrace rfl (by decide) _ _, hbrace rfl (by decide) _ _⟩

theorem body?_eq_none {k : BlockKind} (h : Parked t shelf i j) (hi : i.body? k = none) : j.body? k = none := by
  cases h with
  | same => exact hi
  | placed h => rfl

/-- What lasts from an item to what stands for it lasts from all items. -/
theorem forall_mem {P : Item → Prop} (hP : ∀ {i j}, Parked t shelf i j → P i → P j) {is js : List Item}
    (h : List.Forall₂ (Parked t shelf) is js) (his : ∀ i ∈ is, P i) : ∀ j ∈ js, P j := by
  induction h with
  | nil => exact his
  | cons hij _ ih =>
    rw [List.forall_mem_cons] at his ⊢
    exact ⟨hP hij his.1, ih his.2⟩

theorem all_trans {shelf' : List Chars} (hshelf : shelf <+: shelf') {is js ls : List Item}
    (h : List.Forall₂ (Parked t shelf) is js) (h' : List.Forall₂ (Parked t shelf') js ls) :
    List.Forall₂ (Parked t shelf') is ls := by
  induction h generalizing ls with
  | nil => exact h'
  | cons hij _ ih =>
    obtain ⟨l, ls, hjl, hrest, rfl⟩ := List.forall₂_cons_left_iff.1 h'
    exact .cons ((hij.mono hshelf).trans hjl) (ih hrest)

end Parked

theorem park_spec (t : Translator) (k : BlockKind) (p : Progress) (is : List Item) :
    p.shelf <+: (park t k p is).2.shelf ∧ (park t k p is).2.depth = p.depth ∧
      List.Forall₂ (Parked t (park t k p is).2.shelf) is (park t k p is).1 ∧
      ∀ i ∈ (park t k p is).1, i.body? k = none := by
  induction is generalizing p with
  | nil => exact ⟨List.prefix_refl _, rfl, .nil, fun _ h => nomatch h⟩
  | cons i is ih =>
    rw [park]
    cases hbody : i.body? k with
    | none =>
      obtain ⟨hshelf, hdepth, hparked, hnone⟩ := ih p
      exact ⟨hshelf, hdepth, .cons (.same i) hparked, List.forall_mem_cons.2 ⟨hbody, hnone⟩⟩
    | some body =>
      obtain ⟨hshelf, hdepth, hparked, hnone⟩ := ih (p.shelving (k.output t body))
      have hplace : (park t k (p.shelving (k.output t body)) is).2.shelf[p.shelf.length]? =
          some (k.output t body) := by
        obtain ⟨more, hmore⟩ := hshelf
        rw [← hmore, Progress.shelving, List.append_assoc, List.getElem?_append_right (Nat.le_refl _), Nat.sub_self]
        rfl
      refine ⟨(List.prefix_append _ _).trans hshelf, hdepth, ?_, List.forall_mem_cons.2 ⟨rfl, hnone⟩⟩
      rw [Item.body?_eq_some_iff.1 hbody]
      exact .cons (.placed hplace) hparked

/-! ## The early passes -/

theorem Item.copies_entityPass {i : Item} (h : i.WellFormed) : entityPass.Copies i.source := by
  cases i with
  | text s => exact .of_not_mem h.1
  | block k body => exact k.copies_entityPass h.2.2
  | _ => exact (copies_early (t := ⟨.twig, []⟩) h trivial).1

/-- A pass over a kind of blocks copies all other items. -/
theorem Item.copies_pass (t : Translator) {k : BlockKind} {i : Item} (h : i.WellFormed)
    (hbody : i.body? k = none) : (k.pass t).Copies i.source := by
  cases i with
  | text s => exact .of_not_mem h.1
  | block j body =>
    refine BlockKind.copies_pass t (fun hkj => ?_) (h.2.1 k)
    rw [body?, if_pos hkj.symm] at hbody
    cases hbody
  | _ => exact (copies_early h trivial).2 k

theorem run_entityPass_items {is : List Item} (h : ∀ i ∈ is, i.WellFormed) (p : Progress) :
    entityPass.run p (is.flatMap Item.source) = (is.flatMap Item.source, p) := by
  induction is with
  | nil => exact entityPass.run_nil p
  | cons i is ih =>
    rw [List.forall_mem_cons] at h
    rw [List.flatMap_cons, (i.copies_entityPass h.1).run, ih h.2]

/-- A pass over a kind of blocks parks the blocks of that kind. -/
theorem run_pass_items (t : Translator) (k : BlockKind) {is : List Item} (h : ∀ i ∈ is, i.WellFormed)
    (p : Progress) :
    (k.pass t).run p (is.flatMap Item.source) =
      ((park t k p is).1.flatMap Item.source, (park t k p is).2) := by
  induction is generalizing p with
  | nil => exact (k.pass t).run_nil p
  | cons i is ih =>
    rw [List.forall_mem_cons] at h
    rw [List.flatMap_cons, park]
    cases hbody : i.body? k with
    | none =>
      rw [(i.copies_pass t h.1 hbody).run, ih h.2]
      rfl
    | some body =>
      obtain rfl := Item.body?_eq_some_iff.1 hbody
      have hread := k.read_source h.1.1 (is.flatMap Item.source)
      rw [Item.source_block, (k.pass t).run_of_read hread]
      exact congrArg (fun r : Chars × Progress => (_ ++ r.1, r.2)) (ih h.2 _)

/-- The items behind the passes over several kinds of blocks. -/
def parkAll (t : Translator) : List BlockKind → Progress → List Item → List Item × Progress
  | [], p, is => (is, p)
  | k :: ks, p, is => parkAll t ks (park t k p is).2 (park t k p is).1

theorem parkAll_spec (t : Translator) (ks : List BlockKind) (p : Progress) (is : List Item) :
    p.shelf <+: (parkAll t ks p is).2.shelf ∧ (parkAll t ks p is).2.depth = p.depth ∧
      List.Forall₂ (Parked t (parkAll t ks p is).2.shelf) is (parkAll t ks p is).1 ∧
      ∀ k, (k ∈ ks ∨ ∀ i ∈ is, i.body? k = none) → ∀ i ∈ (parkAll t ks p is).1, i.body? k = none := by
  induction ks generalizing p is with
  | nil =>
    refine ⟨List.prefix_refl _, rfl, List.forall₂_same.2 fun i _ => .same i, fun k hk => ?_⟩
    exact hk.resolve_left List.not_mem_nil
  | cons k ks ih =>
    obtain ⟨hshelf, hdepth, hparked, hnone⟩ := park_spec t k p is
    obtain ⟨hshelf', hdepth', hparked', hnone'⟩ := ih (park t k p is).2 (park t k p is).1
    refine ⟨hshelf.trans hshelf', hdepth'.trans hdepth, ?_, fun j hj => hnone' j ?_⟩
    · exact Parked.all_trans hshelf' hparked hparked'
    · rcases hj with hj | hj
      · rcases List.mem_cons.1 hj with rfl | hj
        · exact .inr hnone
        · exact .inl hj
      · exact .inr (Parked.forall_mem Parked.body?_eq_none hparked hj)

theorem runAll_pass_items (t : Translator) (ks : List BlockKind) {is : List Item} (h : ∀ i ∈ is, i.WellFormed)
    (p : Progress) :
    Pass.runAll (ks.map (BlockKind.pass t)) p (is.flatMap Item.source) =
      ((parkAll t ks p is).1.flatMap Item.source, (parkAll t ks p is).2) := by
  induction ks generalizing p is with
  | nil => rfl
  | cons k ks ih =>
    rw [List.map_cons, Pass.runAll, run_pass_items t k h, parkAll]
    exact ih (Parked.forall_mem Parked.wellFormed (park_spec t k p is).2.2.1 h) _

/-- Behind the early passes there are no blocks. -/
theorem runAll_early_items (t : Translator) {is : List Item} (h : ∀ i ∈ is, i.WellFormed) (p : Progress) :
    Pass.runAll (entityPass :: blockKinds.map (BlockKind.pass t)) p (is.flatMap Item.source) =
      ((parkAll t blockKinds p is).1.flatMap Item.source, (parkAll t blockKinds p is).2) := by
  rw [Pass.runAll, run_entityPass_items h, runAll_pass_items t blockKinds h]

/-! ## The late passes -/

theorem runAll_latePasses_items {t : Translator} (hext : Tagless t.extension) {is : List Item}
    (h : ∀ i ∈ is, i.WellFormed ∧ ∀ k, i.body? k = none) (p : Progress) :
    (Pass.runAll t.latePasses p (is.flatMap Item.source)).1 = translateItems t p.depth is := by
  induction is generalizing p with
  | nil => exact congrArg Prod.fst (Pass.runAll_nil _ p)
  | cons i is ih =>
    rw [List.forall_mem_cons] at h
    have hblock : ∀ k body, i ≠ .block k body := by
      rintro k body rfl
      have hbody := h.1.2 k
      rw [Item.body?, if_pos rfl] at hbody
      cases hbody
    rw [List.flatMap_cons, i.runAll_latePasses hext h.1.1 hblock, translateItems]
    exact congrArg (_ ++ ·) (ih h.2 _)

/-! ## Emptying the shelf -/

theorem restore_items {t : Translator} (hext : Shelf.opening ∉ t.extension) {shelf : List Chars} {is js : List Item}
    (h : List.Forall₂ (Parked t shelf) (is.map (Item.recoded Recoding.shields)) js) (depth : Int) :
    Shelf.restore shelf (translateItems t depth js) = translateItems t depth is := by
  have hext' : Recoding.shields.text t.extension = t.extension := by
    rw [← Recoding.escape_eq, Shelf.escape_eq_self hext]
  induction is generalizing js depth with
  | nil =>
    cases h
    rw [translateItems, Shelf.restore, Text.substitute_nil, Shelf.unescape_nil]
  | cons i is ih =>
    rw [List.map_cons] at h
    obtain ⟨j, js, hparked, hrest, rfl⟩ := List.forall₂_cons_left_iff.1 h
    have hout := i.output_recoded Recoding.framed_shields hext'
    rw [translateItems, translateItems]
    generalize hi : i.recoded Recoding.shields = i' at hparked
    cases hparked with
    | same =>
      rw [← hi, hout, Item.turn_recoded, ← Recoding.escape_eq, Shelf.restore_escape_append, ih hrest]
    | @placed k _ n hplace =>
      -- only a block is recoded to a block
      cases i with
      | block k' body =>
        obtain ⟨rfl, rfl⟩ := Item.block.inj hi
        rw [BlockKind.output_text Recoding.framed_shields, ← Recoding.escape_eq] at hplace ⊢
        exact (Shelf.restore_placeholder_append hplace _ _).trans (congrArg (_ ++ ·) (ih hrest _))
      | _ => cases hi

/-! ## The whole translator -/

theorem escape_items (items : List Item) : Shelf.escape (items.flatMap Item.source) =
    (items.map (Item.recoded Recoding.shields)).flatMap Item.source := by
  induction items with
  | nil => exact Shelf.escape_nil
  | cons i is ih =>
    rw [List.flatMap_cons, Shelf.escape_append, ih, List.map_cons, List.flatMap_cons,
      Item.source_recoded Recoding.framed_shields, Recoding.escape_eq]

/-- A template of items is translated item by item, with something on the shelf for each block. -/
theorem exists_translate_eq {t : Translator} (hext : Tagless t.extension) {items : List Item}
    (h : ∀ i ∈ items, i.WellFormed) :
    ∃ shelf js, List.Forall₂ (Parked t shelf) (items.map (Item.recoded Recoding.shields)) js ∧
      t.translate (items.flatMap Item.source) = Shelf.restore shelf (translateItems t 0 js) := by
  have hwell : ∀ i ∈ items.map (Item.recoded Recoding.shields), i.WellFormed :=
    List.forall_mem_map.2 fun i hi => Item.wellFormed_escape (h i hi)
  obtain ⟨-, hdepth, hparked, hnone⟩ := parkAll_spec t blockKinds {} (items.map (Item.recoded Recoding.shields))
  have hearly := runAll_early_items t hwell {}
  rw [← escape_items] at hearly
  have hlate := runAll_latePasses_items hext (fun i hi =>
    ⟨Parked.forall_mem Parked.wellFormed hparked hwell i hi, fun k => hnone k (.inl (by cases k <;> decide)) i hi⟩)
    (parkAll t blockKinds {} (items.map (Item.recoded Recoding.shields))).2
  refine ⟨_, _, hparked, ?_⟩
  rw [translate_eq_of_blocks t .comment hearly, hlate, hdepth]

/-- A template of items is translated item by item. -/
theorem translate_items {t : Translator} (hext : Tagless t.extension) (hshield : Shelf.opening ∉ t.extension)
    {items : List Item} (h : ∀ i ∈ items, i.WellFormed) :
    t.translate (items.flatMap Item.source) = translateItems t 0 items := by
  obtain ⟨shelf, js, hparked, htranslate⟩ := exists_translate_eq hext h
  rw [htranslate, restore_items hshield hparked]

/-- Two loops, the inner one without names, around a comment that looks like a variable. -/
theorem translate_items_loops :
    let t : Translator := ⟨.twig, "html".toList⟩
    let items : List Item :=
      [.loop "$rows".toList (.pair "k".toList "v".toList), .block .comment " \x7b$v\x7d ".toList,
        .loop "$v->tags".toList .numbered, .var "$value".toList, .endLoop, .endLoop,
        .argument .inclusion "foot".toList]
    (∀ i ∈ items, i.WellFormed) ∧
      t.translate (items.flatMap Item.source) =
        ("\x7b% for k, v in rows %\x7d\x7b#  \x7b$v\x7d  #\x7d" ++
          "\x7b% for key2, value2 in v.tags %\x7d\x7b% set value = value2 %\x7d\x7b% set key = key2 %\x7d" ++
          "\x7b\x7b value|raw \x7d\x7d\x7b% endfor %\x7d\x7b% endfor %\x7d" ++
          "\x7b\x7b include('foot.html') \x7d\x7d").toList := by
  intro t items
  have hwell : ∀ i ∈ items, i.WellFormed := by decide +kernel
  refine ⟨hwell, (translate_items (by decide) (by decide) hwell).trans ?_⟩
  simp only [String.toList_append, String.reduceToList]
  decide +kernel

/-- An extension with a tag in it is not written as it is, nor is one that looks like an escaped shield. -/
theorem translate_items_ne_of_extension :
    let items : List Item := [.argument .inclusion "a".toList]
    (∀ i ∈ items, i.WellFormed) ∧
      ∀ extension ∈ ["\x7b$x\x7d".toList, [Shelf.opening, Shelf.closing]],
        let t : Translator := ⟨.twig, extension⟩
        t.translate (items.flatMap Item.source) ≠ translateItems t 0 items := by
  intro items
  exact ⟨by decide +kernel, by decide +kernel⟩

end ViewBridge.Translator
