import CssWorkbench.Proofs.Token.UrlSequel

/-!
# Numbers in front of another text

A number ends where neither a digit follows nor a point with a digit, and what is written against
it is taken with it: a percent sign or a unit.
-/

namespace CssWorkbench

variable {n : Nat} {c : Char} {cs ds : List Char}

/-- A point with a digit behind it belongs to the number, with all digits there. -/
theorem splitUnsigned_point {d : Char} {ds : List Char}
    (hdrop : cs.dropWhile Char.isDigit = '.' :: d :: ds) (hd : d.isDigit = true) :
    splitUnsigned cs = (cs.takeWhile Char.isDigit ++ '.' :: (d :: ds).takeWhile Char.isDigit,
      (d :: ds).dropWhile Char.isDigit) := by
  unfold splitUnsigned
  simp only [hdrop, if_pos hd]

/-- A number without such a point is its leading digits. -/
theorem splitUnsigned_whole
    (hdrop : ∀ d ds, cs.dropWhile Char.isDigit = '.' :: d :: ds → d.isDigit = false) :
    splitUnsigned cs = (cs.takeWhile Char.isDigit, cs.dropWhile Char.isDigit) := by
  unfold splitUnsigned
  simp only
  split
  · rename_i d ds heq
    rw [if_neg (by simp [hdrop d ds heq]), heq]
  · rfl

/-- A number ends at the same place where no digit and no further point follows. -/
theorem splitUnsigned_sequel (h : Alike (n + 2) (splitUnsigned cs).2 ds) :
    splitUnsigned ((splitUnsigned cs).1 ++ ds) = ((splitUnsigned cs).1, ds) := by
  have hdigit := head?_dropWhile_any Char.isDigit cs
  have hwhole : ∀ {rest}, Alike (n + 2) rest ds → rest.head?.any Char.isDigit = false →
      ds.head?.any Char.isDigit = false := fun h =>
    h.head?_any_eq_false fun _ => isDigit_of_isInert
  by_cases hpoint : ∃ d es, cs.dropWhile Char.isDigit = '.' :: d :: es ∧ d.isDigit = true
  · obtain ⟨d, es, hdrop, hd⟩ := hpoint
    rw [splitUnsigned_point hdrop hd] at h ⊢
    have hrest := head?_dropWhile_any Char.isDigit (d :: es)
    obtain ⟨htake, hdropped⟩ :=
      @takeWhile_sequel (d :: es) _ Char.isDigit (hwhole h hrest)
    have hpoint : ('.' :: ((d :: es).takeWhile Char.isDigit ++ ds)).head?.any Char.isDigit =
        false := rfl
    obtain ⟨htake', hdropped'⟩ := @takeWhile_sequel cs _ Char.isDigit hpoint
    rw [List.takeWhile_cons_of_pos hd] at htake hdropped htake' hdropped' ⊢
    simp only [List.append_assoc, List.cons_append] at htake hdropped htake' hdropped' ⊢
    rw [splitUnsigned, htake', hdropped']
    simp only [if_pos hd, htake, hdropped]
  · have hsplit : splitUnsigned cs = (cs.takeWhile Char.isDigit, cs.dropWhile Char.isDigit) :=
      splitUnsigned_whole fun d es hdrop => Bool.eq_false_iff.mpr fun hd => hpoint ⟨d, es, hdrop, hd⟩
    have hstart : startsUnsigned (cs.dropWhile Char.isDigit) = false := by
      unfold startsUnsigned
      split
      · rename_i d es hdrop
        exact Bool.eq_false_iff.mpr fun hd => hpoint ⟨d, es, hdrop, hd⟩
      · rename_i hdrop
        simpa [hdrop] using hdigit
      · rfl
    rw [hsplit] at h ⊢
    obtain ⟨htake, hdropped⟩ := @takeWhile_sequel cs _ Char.isDigit (hwhole h hdigit)
    have hbehind := h.startsUnsigned_eq_false hstart
    unfold splitUnsigned
    simp only [htake, hdropped]
    split
    · rename_i d es
      rw [startsUnsigned_dot] at hbehind
      rw [if_neg (by simpa using hbehind)]
    · rfl

/-- A text that starts a number starts with the number. -/
theorem head?_splitUnsigned_append (h : startsUnsigned cs = true) :
    ((splitUnsigned cs).1 ++ ds).head? = cs.head? := by
  obtain ⟨c, front, hfront⟩ := List.exists_cons_of_ne_nil (splitUnsigned_ne_nil h)
  have happend := splitUnsigned_append cs
  rw [hfront] at happend ⊢
  exact happend ▸ rfl

/-- A number is the same in front of other text that looks alike. -/
theorem splitNumber_sequel (h : Alike (n + 2) (splitNumber cs).2 ds)
    (hnumber : startsNumber cs = true) :
    splitNumber ((splitNumber cs).1 ++ ds) = ((splitNumber cs).1, ds) := by
  cases cs with
  | nil => cases hnumber
  | cons c cs =>
    rw [startsNumber] at hnumber
    by_cases hc : (c = '+' || c = '-') = true
    · rw [splitNumber, if_pos hc] at h ⊢
      rw [List.cons_append, splitNumber, if_pos hc, splitUnsigned_sequel h]
    · rw [if_neg hc] at hnumber
      rw [splitNumber, if_neg hc] at h ⊢
      have hhead := @head?_splitUnsigned_append _ ds hnumber
      obtain ⟨es, hes⟩ := List.head?_eq_some_iff.mp (hhead.trans List.head?_cons)
      rw [hes, splitNumber, if_neg hc, ← hes, splitUnsigned_sequel h]

/-- What makes a text start with a number is part of the number. -/
theorem startsUnsigned_append (h : startsUnsigned cs = true) :
    startsUnsigned ((splitUnsigned cs).1 ++ ds) = true := by
  unfold startsUnsigned at h
  split at h
  · rename_i d es
    simp [splitUnsigned, show Char.isDigit '.' = false by decide, h, startsUnsigned]
  · rename_i d es hpoint
    have hhead := @head?_splitUnsigned_append (d :: es) ds (by
      rw [startsUnsigned]
      · exact h
      · exact hpoint)
    obtain ⟨fs, hfs⟩ := List.head?_eq_some_iff.mp (hhead.trans List.head?_cons)
    have hd : d ≠ '.' := fun hd => by rw [hd] at h; cases h
    rw [hfs, startsUnsigned_of_ne hd, h]
  · cases h

/-- A number by itself starts one, whatever stands behind it. -/
theorem startsNumber_append (h : startsNumber cs = true) :
    startsNumber ((splitNumber cs).1 ++ ds) = true := by
  cases cs with
  | nil => cases h
  | cons c cs =>
    rw [startsNumber] at h
    by_cases hc : (c = '+' || c = '-') = true
    · rw [if_pos hc] at h
      rw [splitNumber, if_pos hc, List.cons_append, startsNumber, if_pos hc]
      exact startsUnsigned_append h
    · rw [if_neg hc] at h
      rw [splitNumber, if_neg hc]
      have hhead := @head?_splitUnsigned_append _ ds h
      obtain ⟨es, hes⟩ := List.head?_eq_some_iff.mp (hhead.trans List.head?_cons)
      have hnext := @startsUnsigned_append _ ds h
      rw [hes] at hnext ⊢
      rw [startsNumber, if_neg hc, hnext]

end CssWorkbench
