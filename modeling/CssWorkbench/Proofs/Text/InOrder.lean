import CssWorkbench.Text.Span

/-!
# Spans in order

`InOrder start stop spans` says that spans stand one behind the other between two offsets: none is
empty, none overlaps the next, and gaps are allowed. The parts of a selector, the selectors of a
list, the nodes of a block and the edits of a renaming are all compared in this way.
-/

namespace CssWorkbench

variable {start stop middle : Nat} {s t : Span} {ss ts : List Span}

/-- Spans that are not empty and stand one behind the other between `start` and `stop`. -/
def InOrder (start stop : Nat) : List Span → Prop
  | [] => start ≤ stop
  | s :: ss => start ≤ s.start ∧ s.start < s.stop ∧ InOrder s.stop stop ss

/-- Spans in order stop no sooner than they start. -/
theorem InOrder.le (h : InOrder start stop ss) : start ≤ stop := by
  induction ss generalizing start with
  | nil => exact h
  | cons s ss ih =>
    obtain ⟨hstart, hpos, hrest⟩ := h
    have hle := ih hrest
    omega

/-- Room in front of the spans does no harm. -/
theorem InOrder.of_le (hle : start ≤ middle) (h : InOrder middle stop ss) :
    InOrder start stop ss := by
  cases ss with
  | nil => exact Nat.le_trans hle h
  | cons s ss => exact ⟨Nat.le_trans hle h.1, h.2⟩

/-- Where a list of spans is cut, the stretch can be cut as well. -/
theorem inOrder_append : InOrder start stop (ss ++ ts) ↔
    ∃ middle, InOrder start middle ss ∧ InOrder middle stop ts := by
  induction ss generalizing start with
  | nil => exact ⟨fun h => ⟨start, Nat.le_refl _, h⟩, fun ⟨_, hle, h⟩ => h.of_le hle⟩
  | cons s ss ih => simp only [List.cons_append, InOrder, ih, and_assoc, exists_and_left]

/-- Room behind the spans does no harm. -/
theorem InOrder.mono (h : InOrder start middle ss) (hle : middle ≤ stop) :
    InOrder start stop ss := by
  have happend := inOrder_append.mpr ⟨middle, h, show InOrder middle stop [] from hle⟩
  rwa [List.append_nil] at happend

/-- A span is put behind others. -/
theorem InOrder.concat (h : InOrder start middle ss) (hstart : middle ≤ s.start)
    (hpos : s.start < s.stop) (hstop : s.stop ≤ stop) : InOrder start stop (ss ++ [s]) :=
  inOrder_append.mpr ⟨middle, h, hstart, hpos, hstop⟩

/-- From the first span to the last there is room, and both stand where all of them stand. -/
theorem InOrder.ends (h : InOrder start stop ss) (hfirst : ss.head? = some s)
    (hlast : ss.getLast? = some t) : start ≤ s.start ∧ s.start < t.stop ∧ t.stop ≤ stop := by
  obtain ⟨us, rfl⟩ := List.head?_eq_some_iff.mp hfirst
  rcases List.eq_nil_or_concat us with rfl | ⟨front, u, rfl⟩
  · obtain rfl : s = t := by simpa using hlast
    exact h
  · obtain rfl : u = t := by
      rw [List.concat_eq_append, ← List.cons_append, List.getLast?_concat] at hlast
      exact Option.some.inj hlast
    rw [List.concat_eq_append] at h
    obtain ⟨hstart, hpos, hrest⟩ := h
    obtain ⟨middle, hfront, hbehind⟩ := inOrder_append.mp hrest
    have hle := hfront.le
    have hstop : u.stop ≤ stop := hbehind.2.2
    have hinner := hbehind.1
    have hupos := hbehind.2.1
    omega

/-- The stretch of some spans can be made as short as from the first of them to the last. -/
theorem InOrder.tighten (h : InOrder start stop ss) (hfirst : ss.head? = some s)
    (hlast : ss.getLast? = some t) : InOrder s.start t.stop ss := by
  have hstart : InOrder s.start stop ss := by
    obtain ⟨us, rfl⟩ := List.head?_eq_some_iff.mp hfirst
    exact ⟨Nat.le_refl _, h.2⟩
  obtain ⟨front, rfl⟩ := List.getLast?_eq_some_iff.mp hlast
  obtain ⟨middle, hfront, hbehind⟩ := inOrder_append.mp hstart
  exact hfront.concat hbehind.1 hbehind.2.1 (Nat.le_refl _)

/-- Spans are in order when all of them are in the stretch, none is empty, and each one ends
before every later one starts. -/
theorem inOrder_iff_pairwise : InOrder start stop ss ↔
    start ≤ stop ∧ (∀ s ∈ ss, start ≤ s.start ∧ s.start < s.stop ∧ s.stop ≤ stop) ∧
      ss.Pairwise fun s t => s.stop ≤ t.start := by
  induction ss generalizing start with
  | nil => simp [InOrder]
  | cons s ss ih =>
    rw [InOrder, ih, List.pairwise_cons]
    constructor
    · rintro ⟨hstart, hpos, hle, hall, hpairs⟩
      refine ⟨by omega, fun t ht => ?_, fun t ht => (hall t ht).1, hpairs⟩
      rcases List.mem_cons.mp ht with rfl | ht
      · exact ⟨hstart, hpos, hle⟩
      · have hbound := hall t ht
        omega
    · rintro ⟨-, hall, hbehind, hpairs⟩
      obtain ⟨hstart, hpos, hstop⟩ := hall s List.mem_cons_self
      refine ⟨hstart, hpos, hstop, fun t ht => ?_, hpairs⟩
      have hbound := hall t (List.mem_cons_of_mem _ ht)
      exact ⟨hbehind t ht, hbound.2⟩

end CssWorkbench
