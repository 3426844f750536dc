import CssWorkbench.Workspace.PropertyIndex

/-!
# What a text declares

The custom properties that a text contributes to the index: each one once, with the value of its
last declaration, the blanks around it dropped.
-/

namespace CssWorkbench

open Dictionary

/-- The last declaration of a custom property. -/
def Stylesheet.lastDeclaration? (sheet : Stylesheet) (name : String) : Option Declaration :=
  (sheet.customDeclarations.filter fun d => d.name = name).getLast?

/-- The value of a name is that of its last declaration. -/
theorem Stylesheet.get?_customValues (sheet : Stylesheet) (source name : String) :
    (sheet.customValues source).get? name =
      (sheet.lastDeclaration? name).map (Declaration.valueText source) := by
  rw [customValues, get?_foldl_put _ Declaration.name (Declaration.valueText source)]
  exact Option.or_none

/-- Each name has one value. -/
theorem Stylesheet.nodup_keys_customValues (sheet : Stylesheet) (source : String) :
    (sheet.customValues source).keys.Nodup :=
  nodup_keys_foldl_put (d := []) List.nodup_nil _ Declaration.name (Declaration.valueText source)

/-- Sorting and dropping blanks leaves the names as they are. -/
theorem nodup_keys_declaredIn (text : String) : (declaredIn text).keys.Nodup := by
  have hperm := (List.mergeSort_perm (((parse text).1.customValues text).map fun p =>
    (p.1, Text.trimString p.2)) fun a b => a.1 < b.1 || (a.1 = b.1 && a.2 ≤ b.2)).map Prod.fst
  refine hperm.nodup_iff.mpr ?_
  rw [List.map_map]
  exact Stylesheet.nodup_keys_customValues _ _

/-- A text declares a custom property with a value if that is what its last declaration says. -/
theorem mem_declaredIn {text name value : String} :
    (name, value) ∈ declaredIn text ↔ ∃ d, (parse text).1.lastDeclaration? name = some d ∧
      value = Text.trimString (d.valueText text) := by
  have hget (v : String) : (name, v) ∈ (parse text).1.customValues text ↔
      ∃ d, (parse text).1.lastDeclaration? name = some d ∧ d.valueText text = v := by
    rw [← get?_eq_some_iff (Stylesheet.nodup_keys_customValues _ _), Stylesheet.get?_customValues,
      Option.map_eq_some_iff]
  rw [declaredIn, List.mem_mergeSort, List.mem_map]
  constructor
  · rintro ⟨⟨n, v⟩, hmem, hpair⟩
    cases hpair
    obtain ⟨d, hd, rfl⟩ := (hget v).mp hmem
    exact ⟨d, hd, rfl⟩
  · rintro ⟨d, hd, rfl⟩
    exact ⟨_, (hget _).mpr ⟨d, hd, rfl⟩, rfl⟩

end CssWorkbench
