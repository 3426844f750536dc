import CssWorkbench.Tree.Run

/-!
# Runs outside and inside brackets

A run of tokens goes on until a token halts it outside brackets. `Inside` says that a list of
tokens is passed over as a whole, from one bracket count to another; a run is then what can be
passed over, and it is halted only where no bracket is open.
-/

namespace CssWorkbench

variable {halts : TokenKind → Bool} {count : Nat → TokenKind → Nat} {depth stop : Nat}
  {t : Token} {ts us run left : List Token}

/-- The tokens do not halt a run of which `depth` brackets are open, and leave `stop` open. -/
def Inside (halts : TokenKind → Bool) (count : Nat → TokenKind → Nat) :
    Nat → List Token → Nat → Prop
  | depth, [], stop => depth = stop
  | depth, t :: ts, stop =>
    ¬ (depth = 0 ∧ halts t.kind = true) ∧ Inside halts count (count depth t.kind) ts stop

/-- Two stretches are passed over one after the other. -/
theorem inside_append : Inside halts count depth (ts ++ us) stop ↔
    ∃ middle, Inside halts count depth ts middle ∧ Inside halts count middle us stop := by
  induction ts generalizing depth with
  | nil => simp [Inside]
  | cons t ts ih => simp only [List.cons_append, Inside, ih, and_assoc, exists_and_left]

/-- One token is inside a run if it does not halt the run. -/
theorem inside_singleton : Inside halts count depth [t] stop ↔
    ¬ (depth = 0 ∧ halts t.kind = true) ∧ count depth t.kind = stop := Iff.rfl

/-- Tokens that count for no bracket leave as many open as they find. -/
theorem Inside.eq_of_neutral (hneutral : ∀ u ∈ ts, ∀ d, count d u.kind = d)
    (h : Inside halts count depth ts stop) : depth = stop := by
  induction ts generalizing depth with
  | nil => exact h
  | cons t ts ih =>
    have hrest := h.2
    rw [hneutral t List.mem_cons_self] at hrest
    exact ih (fun u hu => hneutral u (List.mem_cons_of_mem _ hu)) hrest

/-- A run ends with the tokens or where one halts it. -/
theorem takeRun_inside (h : takeRun halts count depth ts = (run, left)) :
    ∃ stop, Inside halts count depth run stop ∧
      ∀ u ∈ left.head?, stop = 0 ∧ halts u.kind = true := by
  induction ts generalizing depth run with
  | nil =>
    obtain ⟨rfl, rfl⟩ : [] = run ∧ [] = left := by simpa [takeRun] using h
    exact ⟨depth, rfl, by simp⟩
  | cons t ts ih =>
    rw [takeRun] at h
    split at h
    · rename_i hhalt
      obtain ⟨rfl, rfl⟩ := Prod.mk.inj h
      refine ⟨depth, rfl, fun u hu => ?_⟩
      obtain rfl : t = u := by simpa using hu
      simpa using hhalt
    · rename_i hhalt
      obtain ⟨rfl, hleft⟩ := Prod.mk.inj h
      obtain ⟨stop, hinside, hstop⟩ := ih (Prod.ext rfl hleft)
      exact ⟨stop, ⟨by simpa using hhalt, hinside⟩, hstop⟩

/-- A token halts a run only outside brackets. -/
theorem takeRun_inside_zero (h : takeRun halts count depth ts = (run, t :: left)) :
    Inside halts count depth run 0 ∧ halts t.kind = true := by
  obtain ⟨stop, hinside, hstop⟩ := takeRun_inside h
  obtain ⟨rfl, hhalt⟩ := hstop t rfl
  exact ⟨hinside, hhalt⟩

/-- Nothing of the tokens is lost in a run. -/
theorem takeRun_eq_append (h : takeRun halts count depth ts = (run, left)) : ts = run ++ left := by
  have happend := takeRun_append halts count depth ts
  rw [h] at happend
  exact happend.symm

/-- What follows a run is the end of the tokens. -/
theorem takeRun_suffix (h : takeRun halts count depth ts = (run, left)) : left <:+ ts :=
  ⟨run, (takeRun_eq_append h).symm⟩

/-- What can be passed over opens every run that it opens. -/
theorem takeRun_append_of_inside (h : Inside halts count depth ts stop) (us : List Token) :
    takeRun halts count depth (ts ++ us) =
      (ts ++ (takeRun halts count stop us).1, (takeRun halts count stop us).2) := by
  induction ts generalizing depth with
  | nil =>
    obtain rfl : depth = stop := h
    rfl
  | cons t ts ih =>
    obtain ⟨hhalt, hrest⟩ := h
    rw [List.cons_append, takeRun, if_neg (by simpa using hhalt), ih hrest]
    rfl

/-- A run that closes its brackets ends at the token that halts it. -/
theorem takeRun_of_inside (h : Inside halts count depth run 0) (hhalt : halts t.kind = true)
    (left : List Token) : takeRun halts count depth (run ++ t :: left) = (run, t :: left) := by
  rw [takeRun_append_of_inside h, takeRun, if_pos (by simp [hhalt]), List.append_nil]

end CssWorkbench
