import ViewBridge.Proofs.Lookup.Alias
/-!
# The keys of templates

The key of a template is the path of its file, with a mark in front if the file is translated. Other code keeps what
it makes of a template under its key, so two templates with one key have to be the same. A path with the mark in front
could also be the path of a native file, in a directory whose name starts with the mark. But whether a file is a native
one shows at the end of its path, and the mark stands at the start.

Results:
* `Resolver.isLegacy_iff_suffix`: whether a file is translated shows at the end of its path.
* `Resolver.cacheKey_eq_iff`: names have one key if they lead to one path.
* `Resolver.cacheKey_identifies`: names with one key are answered with the same template.
-/
namespace ViewBridge.Resolver

variable {r : Resolver} {t : FileTree} {n₁ n₂ found₁ found₂ path₁ path₂ name found path : Chars}

/-- A file is translated if its path ends in the extension. -/
theorem isLegacy_iff_suffix (hslash : '/' ∉ r.translator.extension) (h : r.locate t name = .ok (found, path)) :
    r.isLegacy found = true ↔ '.' :: r.translator.extension <:+ path := by
  rw [isLegacy_iff_of_locate hslash h, Text.suffix_afterLast_iff (by simpa using hslash)]

/-- A path that ends in that of a translated file is itself that of a translated file. -/
theorem isLegacy_eq_of_suffix (hslash : '/' ∉ r.translator.extension) (h₁ : r.locate t n₁ = .ok (found₁, path₁))
    (h₂ : r.locate t n₂ = .ok (found₂, path₂)) (hsuffix : path₁ <:+ path₂) (hlegacy : r.isLegacy found₁ = true) :
    r.isLegacy found₂ = true :=
  (isLegacy_iff_suffix hslash h₂).2 (((isLegacy_iff_suffix hslash h₁).1 hlegacy).trans hsuffix)

theorem isLegacy_eq_of_path (hslash : '/' ∉ r.translator.extension) (h₁ : r.locate t n₁ = .ok (found₁, path))
    (h₂ : r.locate t n₂ = .ok (found₂, path)) : r.isLegacy found₁ = r.isLegacy found₂ := by
  rw [Bool.eq_iff_iff, isLegacy_iff_suffix hslash h₁, isLegacy_iff_suffix hslash h₂]

/-- Names have one key if they lead to one path. -/
theorem cacheKey_eq_iff (hslash : '/' ∉ r.translator.extension) (h₁ : r.locate t n₁ = .ok (found₁, path₁))
    (h₂ : r.locate t n₂ = .ok (found₂, path₂)) : r.cacheKey t n₁ = r.cacheKey t n₂ ↔ path₁ = path₂ := by
  rw [cacheKey_of_locate h₁, cacheKey_of_locate h₂, Except.ok.injEq]
  constructor
  · intro hkey
    cases hlegacy₁ : r.isLegacy found₁ <;> cases hlegacy₂ : r.isLegacy found₂ <;>
      simp only [hlegacy₁, hlegacy₂, Bool.false_eq_true, if_true, if_false] at hkey
    case false.false => exact hkey
    case true.true => exact List.append_cancel_left hkey
    -- the path of a native file is not that of a translated one behind the mark
    case false.true =>
      have hboth := isLegacy_eq_of_suffix hslash h₂ h₁ ⟨_, hkey.symm⟩ hlegacy₂
      rw [hlegacy₁] at hboth
      cases hboth
    case true.false =>
      have hboth := isLegacy_eq_of_suffix hslash h₁ h₂ ⟨_, hkey⟩ hlegacy₁
      rw [hlegacy₂] at hboth
      cases hboth
  · rintro rfl
    rw [isLegacy_eq_of_path hslash h₁ h₂]

/-- The key of a template identifies its file and how it is read:

* names that lead to files have one key if, and only if, they lead to one path; then both are translated or none is,
  so a translated template has no key of a native one;
* if a name is answered with a template, then every name with its key is answered with the same one, up to the names
  it was asked for and found as, whether the cache is what it was before or what it is now. -/
theorem cacheKey_identifies (r : Resolver) (t : FileTree) (hslash : '/' ∉ r.translator.extension) :
    (∀ n₁ n₂ found₁ found₂ path₁ path₂,
      r.locate t n₁ = .ok (found₁, path₁) → r.locate t n₂ = .ok (found₂, path₂) →
      (r.cacheKey t n₁ = r.cacheKey t n₂ ↔ path₁ = path₂) ∧
      (path₁ = path₂ → r.isLegacy found₁ = r.isLegacy found₂) ∧
      (r.isLegacy found₁ ≠ r.isLegacy found₂ → r.cacheKey t n₁ ≠ r.cacheKey t n₂)) ∧
    ∀ cache n₁ n₂ template, (r.resolve t cache n₁).1 = .ok template → r.cacheKey t n₁ = r.cacheKey t n₂ →
      ∃ found, r.locate t n₂ = .ok (found, template.path) ∧
        (r.resolve t cache n₂).1 = .ok { template with requested := n₂, name := found } ∧
        (r.resolve t (r.resolve t cache n₁).2 n₂).1 = .ok { template with requested := n₂, name := found } := by
  refine ⟨fun n₁ n₂ found₁ found₂ path₁ path₂ h₁ h₂ => ?_, fun cache n₁ n₂ template h hkey => ?_⟩
  · have hiff := cacheKey_eq_iff hslash h₁ h₂
    have hlegacy : path₁ = path₂ → r.isLegacy found₁ = r.isLegacy found₂ := by
      rintro rfl
      exact isLegacy_eq_of_path hslash h₁ h₂
    exact ⟨hiff, hlegacy, fun hne hkey => hne (hlegacy (hiff.1 hkey))⟩
  · have h₁ := locate_of_resolve h
    cases h₂ : r.locate t n₂ with
    | error e =>
      rw [cacheKey_of_locate h₁, cacheKey, h₂] at hkey
      cases hkey
    | ok place =>
      obtain ⟨found, path⟩ := place
      obtain rfl := (cacheKey_eq_iff hslash h₁ h₂).1 hkey
      exact ⟨found, rfl, resolve_of_path h₁ h₂ (isLegacy_eq_of_path hslash h₁ h₂) h⟩

/-- A native file in a directory whose name starts with the mark, and a translated one with the mark in front of its
path: they have different keys. A second name of the native one has its key and is answered with the same template. -/
theorem cacheKey_identifies_marked :
    let r : Resolver := ⟨⟨["legacy:view".toList], "view".toList⟩, ⟨.twig, "html".toList⟩⟩
    let t := ((FileTree.empty []).addFile ["legacy:view".toList, "a.html.twig".toList] ⟨some "native".toList, 0⟩).addFile
      ["view".toList, "a.html".toList] ⟨some "legacy".toList, 0⟩
    r.cacheKey t "a.html.twig".toList = .ok "legacy:view/a.html.twig".toList ∧
    r.cacheKey t "a".toList = .ok "legacy:view/a.html".toList ∧
    r.cacheKey t "a".toList ≠ r.cacheKey t "a.html.twig".toList ∧
    ∃ found, r.locate t "x/a.html.twig".toList = .ok (found, "legacy:view/a.html.twig".toList) ∧
      (r.resolve t {} "x/a.html.twig".toList).1 =
        .ok ⟨"x/a.html.twig".toList, found, "legacy:view/a.html.twig".toList, "native".toList, false, 0⟩ := by
  intro r t
  have hslash : '/' ∉ r.translator.extension := by decide
  have htranslated : r.locate t "a".toList = .ok ("a.html".toList, "view/a.html".toList) := by decide +kernel
  have hnative : r.locate t "a.html.twig".toList =
      .ok ("a.html.twig".toList, "legacy:view/a.html.twig".toList) := by decide +kernel
  obtain ⟨hkeys, hanswers⟩ := cacheKey_identifies r t hslash
  obtain ⟨-, -, hdiffer⟩ := hkeys _ _ _ _ _ _ htranslated hnative
  obtain ⟨found, hlocate, hresolve, -⟩ := hanswers {} "a.html.twig".toList "x/a.html.twig".toList
    ⟨"a.html.twig".toList, "a.html.twig".toList, "legacy:view/a.html.twig".toList, "native".toList, false, 0⟩
    (by decide +kernel) (by decide +kernel)
  exact ⟨by decide +kernel, by decide +kernel, hdiffer (by decide +kernel), found, hlocate, hresolve⟩

end ViewBridge.Resolver
