/-!
# Parts between separators

A text, or the bytes of one, is cut at each member of a kind, such as the slashes of a path.
-/

namespace CssWorkbench.Text

variable {α : Type} {p : α → Bool} {as part : List α} {a : α}

/-- The parts of a list between the members that satisfy `p`; there is at least one. -/
def splitAtEach (p : α → Bool) : List α → List (List α)
  | [] => [[]]
  | a :: as =>
    if p a then [] :: splitAtEach p as
    else
      match splitAtEach p as with
      | part :: parts => (a :: part) :: parts
      | [] => [[a]]

/-- A member that does not satisfy `p` joins the first part. -/
theorem splitAtEach_cons_of_neg (ha : p a = false) {parts : List (List α)}
    (h : splitAtEach p as = part :: parts) : splitAtEach p (a :: as) = (a :: part) :: parts := by
  simp [splitAtEach, ha, h]

/-- A list without separators is one part. -/
theorem splitAtEach_of_forall (h : ∀ a ∈ as, p a = false) : splitAtEach p as = [as] := by
  induction as with
  | nil => rfl
  | cons a as ih =>
    obtain ⟨ha, has⟩ := List.forall_mem_cons.mp h
    exact splitAtEach_cons_of_neg ha (ih has)

/-- What stands in front of the first separator is the first part. -/
theorem splitAtEach_append (h : ∀ a ∈ part, p a = false) (ha : p a = true) :
    splitAtEach p (part ++ a :: as) = part :: splitAtEach p as := by
  induction part with
  | nil => simp [splitAtEach, ha]
  | cons b part ih =>
    obtain ⟨hb, hpart⟩ := List.forall_mem_cons.mp h
    exact splitAtEach_cons_of_neg hb (ih hpart)

/-- A list that is put together from parts behind separators is cut at these. -/
theorem splitAtEach_flatMap {parts : List (List α)} (ha : p a = true)
    (h : ∀ part ∈ parts, ∀ b ∈ part, p b = false) :
    splitAtEach p (parts.flatMap fun part => a :: part) = [] :: parts := by
  have hbehind (part : List α) (hpart : ∀ b ∈ part, p b = false) :
      splitAtEach p (part ++ parts.flatMap fun part => a :: part) = part :: parts := by
    induction parts generalizing part with
    | nil => simpa using splitAtEach_of_forall hpart
    | cons next parts ih =>
      obtain ⟨hnext, hparts⟩ := List.forall_mem_cons.mp h
      rw [List.flatMap_cons, List.cons_append, splitAtEach_append hpart ha, ih hparts next hnext]
  simpa using hbehind [] nofun

/-- No separator stands in a part. -/
theorem forall_of_mem_splitAtEach (h : part ∈ splitAtEach p as) : ∀ a ∈ part, p a = false := by
  induction as generalizing part with
  | nil =>
    rw [List.mem_singleton.mp h]
    nofun
  | cons a as ih =>
    rw [splitAtEach] at h
    split at h
    · rcases List.mem_cons.mp h with rfl | h
      · nofun
      · exact ih h
    · next ha =>
      have ha : p a = false := by simpa using ha
      split at h
      · next first parts hparts =>
        rw [hparts] at ih
        rcases List.mem_cons.mp h with rfl | h
        · exact List.forall_mem_cons.mpr ⟨ha, ih List.mem_cons_self⟩
        · exact ih (List.mem_cons_of_mem _ h)
      · rw [List.mem_singleton.mp h]
        exact List.forall_mem_singleton.mpr ha

end CssWorkbench.Text
