import Mathlib.Order.Bounds.Basic
import CssWorkbench.Analysis.Suggestion
import CssWorkbench.Proofs.Text.Bytes

/-!
# Distances of texts

The table of distances is filled row by row, and each of its cells is the least cost at which two
starts line up. Texts line up at a cost exactly when no more single edits than that lead from one to
the other, so the last cell is the least number of edits. As edits can be undone and carried on, this
number is a distance.
-/

namespace CssWorkbench

variable {n m : Nat} {x y : UInt8} {us vs xs ys zs : List UInt8}

/-! ## Edits and costs -/

/-- One byte is put in, taken out or exchanged. -/
inductive SingleEdit : List UInt8 → List UInt8 → Prop
  | insert (front behind : List UInt8) (y : UInt8) :
      SingleEdit (front ++ behind) (front ++ y :: behind)
  | delete (front behind : List UInt8) (x : UInt8) :
      SingleEdit (front ++ x :: behind) (front ++ behind)
  | replace (front behind : List UInt8) (x y : UInt8) :
      SingleEdit (front ++ x :: behind) (front ++ y :: behind)

/-- So many single edits, one after the other, lead from one text to another. -/
inductive EditedIn : Nat → List UInt8 → List UInt8 → Prop
  | done (xs : List UInt8) : EditedIn 0 xs xs
  | edit {n : Nat} {xs ys zs : List UInt8} (first : SingleEdit xs ys) (rest : EditedIn n ys zs) :
      EditedIn (n + 1) xs zs

/-- Two texts line up at a cost: a byte without a partner costs one, and so does a byte with a
partner that may differ from it. -/
inductive LinesUp : Nat → List UInt8 → List UInt8 → Prop
  | nil : LinesUp 0 [] []
  | same {n : Nat} {xs ys : List UInt8} (x : UInt8) (behind : LinesUp n xs ys) :
      LinesUp n (x :: xs) (x :: ys)
  | insert {n : Nat} {xs ys : List UInt8} (y : UInt8) (behind : LinesUp n xs ys) :
      LinesUp (n + 1) xs (y :: ys)
  | delete {n : Nat} {xs ys : List UInt8} (x : UInt8) (behind : LinesUp n xs ys) :
      LinesUp (n + 1) (x :: xs) ys
  | replace {n : Nat} {xs ys : List UInt8} (x y : UInt8) (behind : LinesUp n xs ys) :
      LinesUp (n + 1) (x :: xs) (y :: ys)

/-- The least cost at which two texts line up. -/
def leastCost : List UInt8 → List UInt8 → Nat
  | [], ys => ys.length
  | x :: xs, [] => (x :: xs).length
  | x :: xs, y :: ys =>
    min (min (leastCost xs ys + if x = y then 0 else 1) (leastCost xs (y :: ys) + 1))
      (leastCost (x :: xs) ys + 1)

/-! ## The least cost -/

/-- Every byte has to be put in where there is none. -/
@[simp] theorem leastCost_nil_left (ys : List UInt8) : leastCost [] ys = ys.length := by
  rw [leastCost]

/-- Every byte has to be taken out where there shall be none. -/
@[simp] theorem leastCost_nil_right (xs : List UInt8) : leastCost xs [] = xs.length := by
  cases xs with
  | nil => rw [leastCost_nil_left]
  | cons x xs => rw [leastCost]

/-- The first bytes are partners of each other, or one of them has none. -/
theorem leastCost_cons_cons (x y : UInt8) (xs ys : List UInt8) :
    leastCost (x :: xs) (y :: ys) =
      min (min (leastCost xs ys + if x = y then 0 else 1) (leastCost xs (y :: ys) + 1))
        (leastCost (x :: xs) ys + 1) := by
  rw [leastCost]

/-- A text lines up with nothing when all of its bytes are put in. -/
theorem linesUp_insertAll (ys : List UInt8) : LinesUp ys.length [] ys := by
  induction ys with
  | nil => exact .nil
  | cons y ys ih => exact .insert y ih

/-- Nothing lines up with a text when all of its bytes are taken out. -/
theorem linesUp_deleteAll (xs : List UInt8) : LinesUp xs.length xs [] := by
  induction xs with
  | nil => exact .nil
  | cons x xs ih => exact .delete x ih

/-- Of two costs the smaller one will do. -/
theorem LinesUp.cheaper (h : LinesUp n xs ys) (h' : LinesUp m xs ys) :
    LinesUp (min n m) xs ys := by
  rcases Nat.le_total n m with hle | hle
  · rwa [Nat.min_eq_left hle]
  · rwa [Nat.min_eq_right hle]

/-- Texts line up at their least cost. -/
theorem linesUp_leastCost (xs ys : List UInt8) : LinesUp (leastCost xs ys) xs ys := by
  induction xs, ys using leastCost.induct with
  | case1 ys =>
    rw [leastCost_nil_left]
    exact linesUp_insertAll ys
  | case2 x xs =>
    rw [leastCost_nil_right]
    exact linesUp_deleteAll (x :: xs)
  | case3 x xs y ys ihBoth ihDelete ihInsert =>
    have hboth : LinesUp (leastCost xs ys + if x = y then 0 else 1) (x :: xs) (y :: ys) := by
      split
      · rename_i heq
        exact heq ▸ ihBoth.same x
      · exact ihBoth.replace x y
    rw [leastCost_cons_cons]
    exact (hboth.cheaper (ihDelete.delete x)).cheaper (ihInsert.insert y)

/-- A byte more on the right costs at most one more. -/
theorem leastCost_insert_le (xs ys : List UInt8) (y : UInt8) :
    leastCost xs (y :: ys) ≤ leastCost xs ys + 1 := by
  cases xs with
  | nil => simp
  | cons x xs =>
    rw [leastCost_cons_cons]
    exact Nat.min_le_right _ _

/-- A byte more on the left costs at most one more. -/
theorem leastCost_delete_le (xs ys : List UInt8) (x : UInt8) :
    leastCost (x :: xs) ys ≤ leastCost xs ys + 1 := by
  cases ys with
  | nil => simp
  | cons y ys =>
    rw [leastCost_cons_cons]
    exact Nat.le_trans (Nat.min_le_left _ _) (Nat.min_le_right _ _)

/-- A byte more on both sides costs nothing if it is the same one, and one at most if not. -/
theorem leastCost_both_le (xs ys : List UInt8) (x y : UInt8) :
    leastCost (x :: xs) (y :: ys) ≤ leastCost xs ys + if x = y then 0 else 1 := by
  rw [leastCost_cons_cons]
  exact Nat.le_trans (Nat.min_le_left _ _) (Nat.min_le_left _ _)

/-- No texts line up at less than their least cost. -/
theorem LinesUp.leastCost_le (h : LinesUp n xs ys) : leastCost xs ys ≤ n := by
  induction h with
  | nil => exact Nat.le_of_eq (leastCost_nil_left [])
  | @same _ xs ys x _ ih =>
    have hstep := leastCost_both_le xs ys x x
    rw [if_pos rfl] at hstep
    exact Nat.le_trans hstep ih
  | @insert _ xs ys y _ ih => exact Nat.le_trans (leastCost_insert_le xs ys y) (Nat.succ_le_succ ih)
  | @delete _ xs ys x _ ih => exact Nat.le_trans (leastCost_delete_le xs ys x) (Nat.succ_le_succ ih)
  | @replace _ xs ys x y _ ih =>
    have hstep := leastCost_both_le xs ys x y
    have hcost : (if x = y then 0 else 1) ≤ 1 := by split <;> decide
    omega

/-! ## Edits line texts up -/

/-- What lines up with a second text lines up with it after an edit of the first, at a cost of one
more. -/
def CostsOneMore (xs ys : List UInt8) : Prop :=
  ∀ (n : Nat) (zs : List UInt8), LinesUp n ys zs → ∃ m ≤ n + 1, LinesUp m xs zs

/-- A byte in front that both texts share changes nothing. -/
theorem CostsOneMore.cons (h : CostsOneMore xs ys) (c : UInt8) :
    CostsOneMore (c :: xs) (c :: ys) := by
  intro n zs hup
  generalize hfirst : c :: ys = whole at hup
  induction hup with
  | nil => cases hfirst
  | same x behind =>
    obtain ⟨rfl, rfl⟩ := List.cons.inj hfirst
    obtain ⟨m, hm, hxs⟩ := h _ _ behind
    exact ⟨m, hm, hxs.same c⟩
  | insert y behind ih =>
    obtain ⟨m, hm, hxs⟩ := ih hfirst
    exact ⟨m + 1, Nat.succ_le_succ hm, hxs.insert y⟩
  | delete x behind =>
    obtain ⟨rfl, rfl⟩ := List.cons.inj hfirst
    obtain ⟨m, hm, hxs⟩ := h _ _ behind
    exact ⟨m + 1, Nat.succ_le_succ hm, hxs.delete c⟩
  | replace x y behind =>
    obtain ⟨rfl, rfl⟩ := List.cons.inj hfirst
    obtain ⟨m, hm, hxs⟩ := h _ _ behind
    exact ⟨m + 1, Nat.succ_le_succ hm, hxs.replace c y⟩

/-- A byte that is put in front can be left out again: its partner is then without one. -/
theorem costsOneMore_insert (xs : List UInt8) (y : UInt8) : CostsOneMore xs (y :: xs) := by
  intro n zs hup
  generalize hfirst : y :: xs = whole at hup
  induction hup with
  | nil => cases hfirst
  | @same n _ _ x behind =>
    obtain ⟨rfl, rfl⟩ := List.cons.inj hfirst
    exact ⟨n + 1, Nat.le_refl _, behind.insert y⟩
  | insert z behind ih =>
    obtain ⟨m, hm, hxs⟩ := ih hfirst
    exact ⟨m + 1, Nat.succ_le_succ hm, hxs.insert z⟩
  | @delete n _ _ x behind =>
    obtain ⟨rfl, rfl⟩ := List.cons.inj hfirst
    exact ⟨n, by omega, behind⟩
  | @replace n _ _ x z behind =>
    obtain ⟨rfl, rfl⟩ := List.cons.inj hfirst
    exact ⟨n + 1, Nat.le_succ _, behind.insert z⟩

/-- To take a byte out of a text costs at most one more. -/
theorem costsOneMore_delete (ys : List UInt8) (x : UInt8) : CostsOneMore (x :: ys) ys :=
  fun n _ hup => ⟨n + 1, Nat.le_refl _, hup.delete x⟩

/-- A byte that is exchanged keeps its partner. -/
theorem costsOneMore_replace (xs : List UInt8) (x y : UInt8) :
    CostsOneMore (x :: xs) (y :: xs) := by
  intro n zs hup
  generalize hfirst : y :: xs = whole at hup
  induction hup with
  | nil => cases hfirst
  | @same n _ _ z behind =>
    obtain ⟨rfl, rfl⟩ := List.cons.inj hfirst
    exact ⟨n + 1, Nat.le_refl _, behind.replace x y⟩
  | insert z behind ih =>
    obtain ⟨m, hm, hxs⟩ := ih hfirst
    exact ⟨m + 1, Nat.succ_le_succ hm, hxs.insert z⟩
  | @delete n _ _ z behind =>
    obtain ⟨rfl, rfl⟩ := List.cons.inj hfirst
    exact ⟨n + 1, Nat.le_succ _, behind.delete x⟩
  | @replace n _ _ z w behind =>
    obtain ⟨rfl, rfl⟩ := List.cons.inj hfirst
    exact ⟨n + 1, Nat.le_succ _, behind.replace x w⟩

/-- Behind any front an edit costs at most one. -/
theorem SingleEdit.costsOneMore (h : SingleEdit xs ys) : CostsOneMore xs ys := by
  have hfront {us vs : List UInt8} (hedit : CostsOneMore us vs) (front : List UInt8) :
      CostsOneMore (front ++ us) (front ++ vs) := by
    induction front with
    | nil => exact hedit
    | cons c front ih => exact ih.cons c
  cases h with
  | insert front behind y => exact hfront (costsOneMore_insert behind y) front
  | delete front behind x => exact hfront (costsOneMore_delete behind x) front
  | replace front behind x y => exact hfront (costsOneMore_replace behind x y) front

/-- A text lines up with itself at no cost. -/
theorem linesUp_refl (xs : List UInt8) : LinesUp 0 xs xs := by
  induction xs with
  | nil => exact .nil
  | cons x xs ih => exact ih.same x

/-- Edits line the texts up at no more than their number. -/
theorem EditedIn.exists_linesUp (h : EditedIn n xs ys) : ∃ m ≤ n, LinesUp m xs ys := by
  induction h with
  | done xs => exact ⟨0, Nat.le_refl 0, linesUp_refl xs⟩
  | edit first _ ih =>
    obtain ⟨m, hm, hup⟩ := ih
    obtain ⟨k, hk, hfirst⟩ := first.costsOneMore _ _ hup
    exact ⟨k, by omega, hfirst⟩

/-! ## Costs are edits -/

/-- A single edit can be made behind any byte. -/
theorem SingleEdit.cons (h : SingleEdit xs ys) (c : UInt8) : SingleEdit (c :: xs) (c :: ys) := by
  cases h with
  | insert front behind y => exact .insert (c :: front) behind y
  | delete front behind x => exact .delete (c :: front) behind x
  | replace front behind x y => exact .replace (c :: front) behind x y

/-- Edits can be made behind any byte. -/
theorem EditedIn.cons (h : EditedIn n xs ys) (c : UInt8) : EditedIn n (c :: xs) (c :: ys) := by
  induction h with
  | done xs => exact .done (c :: xs)
  | edit first _ ih => exact .edit (first.cons c) ih

/-- What lines up at a cost is reached by as many edits: the bytes that stand alone are put in or
taken out, the others exchanged. -/
theorem LinesUp.editedIn (h : LinesUp n xs ys) : EditedIn n xs ys := by
  induction h with
  | nil => exact .done []
  | same x _ ih => exact ih.cons x
  | @insert _ xs _ y _ ih => exact .edit (.insert [] xs y) (ih.cons y)
  | @delete _ xs _ x _ ih => exact .edit (.delete [] xs x) ih
  | @replace _ xs _ x y _ ih => exact .edit (.replace [] xs x y) (ih.cons y)

/-- The least cost is the least number of edits. -/
theorem isLeast_leastCost (xs ys : List UInt8) :
    IsLeast {n | EditedIn n xs ys} (leastCost xs ys) := by
  refine ⟨(linesUp_leastCost xs ys).editedIn, fun n hedited => ?_⟩
  obtain ⟨m, hm, hup⟩ := EditedIn.exists_linesUp hedited
  exact Nat.le_trans hup.leastCost_le hm

/-! ## Edits backwards, undone and carried on -/

/-- An edit of a text is one of the text read backwards. -/
theorem SingleEdit.reverse (h : SingleEdit xs ys) : SingleEdit xs.reverse ys.reverse := by
  cases h with
  | insert front behind y => simpa using SingleEdit.insert behind.reverse front.reverse y
  | delete front behind x => simpa using SingleEdit.delete behind.reverse front.reverse x
  | replace front behind x y => simpa using SingleEdit.replace behind.reverse front.reverse x y

/-- Edits can be made in the texts read from behind. -/
theorem EditedIn.reverse (h : EditedIn n xs ys) : EditedIn n xs.reverse ys.reverse := by
  induction h with
  | done xs => exact .done xs.reverse
  | edit first _ ih => exact .edit first.reverse ih

/-- Texts are as many edits apart as they are when read from behind. -/
theorem editedIn_reverse_iff : EditedIn n xs.reverse ys.reverse ↔ EditedIn n xs ys := by
  refine ⟨fun h => ?_, EditedIn.reverse⟩
  simpa using h.reverse

/-- A single edit can be undone by a single edit. -/
theorem SingleEdit.symm (h : SingleEdit xs ys) : SingleEdit ys xs := by
  cases h with
  | insert front behind y => exact .delete front behind y
  | delete front behind x => exact .insert front behind x
  | replace front behind x y => exact .replace front behind y x

/-- Edits behind edits are as many as both together. -/
theorem EditedIn.trans (h : EditedIn n xs ys) (h' : EditedIn m ys zs) :
    EditedIn (n + m) xs zs := by
  induction h with
  | done xs => exact (Nat.zero_add m).symm ▸ h'
  | @edit n _ _ _ first _ ih => exact (Nat.succ_add n m).symm ▸ .edit first (ih h')

/-- Edits can be undone by as many edits. -/
theorem EditedIn.symm (h : EditedIn n xs ys) : EditedIn n ys xs := by
  induction h with
  | done xs => exact .done xs
  | edit first _ ih => exact ih.trans (.edit first.symm (.done _))

/-- Only the same text is no edit apart. -/
theorem editedIn_zero_iff : EditedIn 0 xs ys ↔ xs = ys := by
  constructor
  · intro h
    cases h
    rfl
  · rintro rfl
    exact .done xs

/-! ## The table -/

/-- The cells of a row behind the one for `vs`: the least costs of lining `us` up with longer and
longer texts. Both are read backwards, the byte that came last in front. -/
def cellsBehind (us vs : List UInt8) : List UInt8 → List Nat
  | [] => []
  | y :: ys => leastCost us (y :: vs) :: cellsBehind us (y :: vs) ys

/-- The row that starts with no byte of the second text. -/
def costRow (us ys : List UInt8) : List Nat :=
  leastCost us [] :: cellsBehind us [] ys

/-- A row is computed from the one above it. -/
theorem distanceRow_cellsBehind (us vs ys : List UInt8) (x : UInt8) :
    distanceRow x (leastCost (x :: us) vs) ys (leastCost us vs :: cellsBehind us vs ys) =
      cellsBehind (x :: us) vs ys := by
  induction ys generalizing vs with
  | nil => rfl
  | cons y ys ih =>
    have hcell : min (min (leastCost us vs + if x = y then 0 else 1) (leastCost us (y :: vs) + 1))
        (leastCost (x :: us) vs + 1) = leastCost (x :: us) (y :: vs) :=
      (leastCost_cons_cons x y us vs).symm
    rw [cellsBehind, distanceRow]
    simp only [hcell, ih (y :: vs)]
    rfl

/-- Each row of the table holds the least costs of what was read of the first text. -/
theorem lastDistanceRow_costRow (us xs ys : List UInt8) :
    lastDistanceRow ys us.length (costRow us ys) xs = costRow (xs.reverse ++ us) ys := by
  induction xs generalizing us with
  | nil => rfl
  | cons x xs ih =>
    have hfirst : leastCost (x :: us) [] = us.length + 1 := leastCost_nil_right (x :: us)
    have hrow := distanceRow_cellsBehind us [] ys x
    rw [hfirst] at hrow
    have hnext : (us.length + 1) :: distanceRow x (us.length + 1) ys (costRow us ys) =
        costRow (x :: us) ys := by
      rw [costRow, hrow, costRow, hfirst]
    rw [lastDistanceRow, hnext]
    simpa using ih (x :: us)

/-- Above all rows stand the costs of putting everything in. -/
theorem costRow_nil (ys : List UInt8) : costRow [] ys = List.range (ys.length + 1) := by
  have hcells : ∀ ys vs : List UInt8,
      cellsBehind [] vs ys = List.range' (vs.length + 1) ys.length := by
    intro ys
    induction ys with
    | nil => intro vs; rfl
    | cons y ys ih =>
      intro vs
      rw [cellsBehind, ih (y :: vs), leastCost_nil_left]
      rfl
  rw [costRow, hcells, leastCost_nil_left, List.range_eq_range']
  rfl

/-- The last cell of a row is that of the whole second text. -/
theorem getLastD_costRow (us ys : List UInt8) :
    (costRow us ys).getLastD 0 = leastCost us ys.reverse := by
  have hcells : ∀ ys vs : List UInt8,
      (leastCost us vs :: cellsBehind us vs ys).getLastD 0 = leastCost us (ys.reverse ++ vs) := by
    intro ys
    induction ys with
    | nil => intro vs; rfl
    | cons y ys ih =>
      intro vs
      have hrest := ih (y :: vs)
      rw [cellsBehind, List.reverse_cons, List.append_assoc, List.singleton_append, ← hrest]
      rfl
  rw [costRow, hcells, List.append_nil]

/-- The distance is the least cost, computed from the ends of the texts. -/
theorem bytesDistance_eq_leastCost (xs ys : List UInt8) :
    bytesDistance xs ys = leastCost xs.reverse ys.reverse := by
  have hrow := lastDistanceRow_costRow [] xs ys
  rw [List.append_nil, List.length_nil] at hrow
  rw [bytesDistance, ← costRow_nil, hrow, getLastD_costRow]

/-- The distance of two lists of bytes is the least number of edits between them. -/
theorem isLeast_bytesDistance (xs ys : List UInt8) :
    IsLeast {n | EditedIn n xs ys} (bytesDistance xs ys) := by
  have hleast := isLeast_leastCost xs.reverse ys.reverse
  simp only [editedIn_reverse_iff] at hleast
  rwa [bytesDistance_eq_leastCost]

/-! ## Distances of strings -/

/-- The distance of two strings is the least number of single bytes to put in, take out or exchange
that makes the one of the other. It is zero for equal strings alone, the same in both directions and
no longer than any way round. -/
theorem editDistance_isLeast (a b : String) :
    IsLeast {n | EditedIn n a.toUTF8.toList b.toUTF8.toList} (editDistance a b) ∧
      (editDistance a b = 0 ↔ a = b) ∧ editDistance a b = editDistance b a ∧
      ∀ c, editDistance a c ≤ editDistance a b + editDistance b c := by
  have hleast (s t : String) :
      IsLeast {n | EditedIn n s.toUTF8.toList t.toUTF8.toList} (editDistance s t) :=
    isLeast_bytesDistance _ _
  have hsymm (s t : String) : editDistance s t ≤ editDistance t s :=
    (hleast s t).2 (hleast t s).1.symm
  refine ⟨hleast a b, ⟨fun hzero => ?_, ?_⟩, Nat.le_antisymm (hsymm a b) (hsymm b a), fun c => ?_⟩
  · have hedited := (hleast a b).1
    rw [hzero] at hedited
    exact toUTF8_toList_inj.mp (editedIn_zero_iff.mp hedited)
  · rintro rfl
    exact Nat.le_zero.mp ((hleast a a).2 (.done _))
  · exact (hleast a c).2 ((hleast a b).1.trans (hleast b c).1)

/-- Letters that are taken out, exchanged and put in. -/
example : editDistance "kitten" "sitting" = 3 := by cbv

end CssWorkbench
