import CssWorkbench.Proofs.Token.StretchSequel

/-!
# Urls in front of another text

An unquoted url ends at its parenthesis, whatever follows; what is wrong inside it only decides
where the search for the parenthesis starts.
-/

namespace CssWorkbench

variable {c d : Char} {cs ds : List Char}

/-- What is left behind all leading characters that pass a test starts with one that fails it. -/
theorem head?_dropWhile_any (p : Char → Bool) (cs : List Char) :
    (cs.dropWhile p).head?.any p = false := by
  have hhead := List.head?_dropWhile_not p cs
  cases hdrop : (cs.dropWhile p).head? with
  | none => rfl
  | some d => simpa [hdrop] using hhead

/-- The characters in front of the first one that fails a test are the same in front of another
text that fails it at once. -/
theorem takeWhile_sequel {p : Char → Bool} (h : ds.head?.any p = false) :
    (cs.takeWhile p ++ ds).takeWhile p = cs.takeWhile p ∧
      (cs.takeWhile p ++ ds).dropWhile p = ds := by
  have hpass : ∀ c ∈ cs.takeWhile p, p c = true := fun c hc =>
    List.all_eq_true.mp List.all_takeWhile c hc
  rw [List.takeWhile_append_of_pos hpass, List.dropWhile_append_of_pos hpass]
  cases ds with
  | nil => exact ⟨List.append_nil _, rfl⟩
  | cons d ds =>
    have hd : p d = false := h
    simp [hd]

/-- A broken URL takes nothing only at the end of the text. -/
theorem badUrlTail_taken (htaken : (badUrlTail cs).taken = []) : (badUrlTail cs).rest = [] := by
  fun_induction badUrlTail cs <;> simp_all

/-- What is left of a malformed url ends at the same place. -/
theorem badUrlTail_sequel (hend : (badUrlTail cs).rest = [] → ds = []) :
    badUrlTail ((badUrlTail cs).taken ++ ds) = (badUrlTail cs).inFrontOf ds := by
  fun_induction badUrlTail cs with
  | case1 =>
    obtain rfl := hend rfl
    rfl
  | case2 cs => rfl
  | case3 c cs ih =>
    rw [Stretch.after_inFrontOf, ← ih hend]
    rfl
  | case4 c cs hclose hescape ih =>
    rw [Stretch.after_inFrontOf, ← ih hend, Stretch.after_taken, List.append_assoc,
      List.singleton_append]
    refine badUrlTail.eq_4 c _ (fun hc => hclose hc) fun e es hc hes => ?_
    cases cs with
    | nil =>
      obtain rfl := hend rfl
      cases hes
    | cons d cs => exact hescape d cs hc rfl

/-- The end of a URL takes nothing only at the end of the text. -/
theorem urlEnd_taken (htaken : (urlEnd cs).taken = []) : (urlEnd cs).rest = [] := by
  unfold urlEnd at htaken ⊢
  split
  · rfl
  · split
    · simp_all
    · rename_i hc
      simp only [if_neg hc] at htaken
      exact badUrlTail_taken htaken

/-- A reader that takes nothing only at the end of a text starts with the same character. -/
theorem head?_of_taken {s : Stretch} (happend : s.taken ++ s.rest = cs)
    (htaken : s.taken = [] → s.rest = []) (hend : s.rest = [] → ds = []) :
    (s.taken ++ ds).head? = cs.head? := by
  refine (head?_append_congr fun hnil => ?_).trans (by rw [happend])
  rw [htaken hnil, hend (htaken hnil)]

/-- The end of a URL is the same in front of other text, unless it ended with the text. -/
theorem urlEnd_sequel (hend : (urlEnd cs).rest = [] → ds = []) :
    urlEnd ((urlEnd cs).taken ++ ds) = (urlEnd cs).inFrontOf ds := by
  have hhead := head?_of_taken (urlEnd_append cs) urlEnd_taken hend
  cases cs with
  | nil =>
    obtain rfl := hend rfl
    rfl
  | cons c cs =>
    obtain ⟨es, hes⟩ := List.head?_eq_some_iff.mp (hhead.trans List.head?_cons)
    rw [hes, urlEnd]
    by_cases hc : c = ')'
    · rw [urlEnd, if_pos hc] at hes ⊢
      rw [if_pos hc, ← (List.cons.inj hes).2]
      rfl
    · rw [urlEnd, if_neg hc] at hes hend ⊢
      rw [if_neg hc, ← hes, badUrlTail_sequel hend]

/-! The ways in which the body of a url goes on. -/

/-- A URL may end with the text. -/
theorem urlTail_nil : urlTail [] = .nothing [] := by
  rw [urlTail.eq_def]

/-- A URL is closed by a parenthesis. -/
theorem urlTail_close : urlTail (')' :: cs) = ⟨[')'], [], cs, false⟩ := by
  rw [urlTail.eq_def]
  simp

/-- A backslash starts an escape in a URL. -/
theorem urlTail_escape (hcs : cs.head?.any (· ≠ '\n') = true) :
    urlTail ('\\' :: cs) = (urlTail (escape cs).rest).after ('\\' :: (escape cs).taken)
      (escape cs).value := by
  rw [urlTail.eq_def]
  simp only [if_neg (show '\\' ≠ ')' by decide), hcs, decide_true, Bool.true_and, if_true]

/-- Behind a blank a URL can only end. -/
theorem urlTail_blank (hblank : Text.isAsciiBlank c = true) :
    urlTail (c :: cs) = (urlEnd ((c :: cs).dropWhile Text.isAsciiBlank)).after
      ((c :: cs).takeWhile Text.isAsciiBlank) [] := by
  have hclose : c ≠ ')' := fun hc => by rw [hc] at hblank; cases hblank
  have hslash : c ≠ '\\' := fun hc => by rw [hc] at hblank; cases hblank
  rw [urlTail.eq_def]
  simp only [if_neg hclose, hslash, decide_false, Bool.false_and, Bool.false_eq_true, if_false,
    if_pos hblank]

/-- Some characters break a URL. -/
theorem urlTail_breaks (hclose : c ≠ ')') (hescape : c = '\\' → cs.head?.any (· ≠ '\n') = false)
    (hblank : ¬ Text.isAsciiBlank c = true) (hbreaks : breaksUrl c = true) :
    urlTail (c :: cs) = badUrlTail (c :: cs) := by
  have hno : ¬ (decide (c = '\\') && cs.head?.any (· ≠ '\n')) = true := by
    by_cases hc : c = '\\'
    · rw [hescape hc, Bool.and_false]
      exact Bool.false_ne_true
    · simp [hc]
  rw [urlTail.eq_def]
  simp only [if_neg hclose, if_neg hno, if_neg hblank, if_pos hbreaks]

/-- Any other character stands for itself in a URL. -/
theorem urlTail_plain (hclose : c ≠ ')') (hblank : ¬ Text.isAsciiBlank c = true)
    (hbreaks : ¬ breaksUrl c = true) : urlTail (c :: cs) = (urlTail cs).after [c] [c] := by
  have hno : ¬ (decide (c = '\\') && cs.head?.any (· ≠ '\n')) = true := by
    have hslash : c ≠ '\\' := fun hc => hbreaks (by simp [hc, breaksUrl])
    simp [hslash]
  rw [urlTail.eq_def]
  simp only [if_neg hclose, if_neg hno, if_neg hblank, if_neg hbreaks]

/-- A URL takes nothing only at the end of the text. -/
theorem urlTail_taken (htaken : (urlTail cs).taken = []) : (urlTail cs).rest = [] := by
  fun_induction urlTail cs with
  | case1 => rfl
  | case2 | case3 => simp at htaken
  | case4 c cs _ _ hc => simp [hc] at htaken
  | case5 c cs => exact badUrlTail_taken htaken
  | case6 c cs => simp at htaken

/-- What closes a url behind blanks is no blank. -/
theorem head?_urlEnd_append (hend : (urlEnd (cs.dropWhile Text.isAsciiBlank)).rest = [] → ds = []) :
    ((urlEnd (cs.dropWhile Text.isAsciiBlank)).taken ++ ds).head?.any Text.isAsciiBlank = false := by
  rw [head?_of_taken (urlEnd_append _) urlEnd_taken hend]
  exact head?_dropWhile_any _ cs

/-- An unquoted url ends at the same place. -/
theorem urlTail_sequel (hend : (urlTail cs).rest = [] → ds = []) :
    urlTail ((urlTail cs).taken ++ ds) = (urlTail cs).inFrontOf ds := by
  fun_induction urlTail cs with
  | case1 =>
    obtain rfl := hend rfl
    exact urlTail_nil
  | case2 cs => exact urlTail_close
  | case3 c cs hclose hescape ih =>
    obtain ⟨rfl, hcs⟩ : c = '\\' ∧ cs.head?.any (· ≠ '\n') = true := by simpa using hescape
    have hne : cs ≠ [] := fun hnil => by simp [hnil] at hcs
    have hhead := head?_of_taken (urlTail_append (escape cs).rest) urlTail_taken hend
    have hfirst := escape_head? ((urlTail (escape cs).rest).taken ++ ds) hne
    rw [Stretch.after_inFrontOf, ← ih hend, Stretch.after_taken, List.cons_append,
      List.cons_append, List.append_assoc, urlTail_escape (by rw [hfirst]; exact hcs),
      escape_sequel (.inr hhead)]
    rfl
  | case4 c cs hclose hescape hc =>
    have hnext := head?_urlEnd_append hend
    obtain ⟨htake, hdrop⟩ := @takeWhile_sequel (c :: cs) _ Text.isAsciiBlank hnext
    rw [Stretch.after_taken, List.append_assoc]
    rw [List.takeWhile_cons_of_pos hc, List.cons_append] at htake hdrop ⊢
    rw [urlTail_blank hc, htake, hdrop, urlEnd_sequel hend]
    rfl
  | case5 c cs hclose hescape hblank hbreaks =>
    have hrest := badUrlTail_sequel hend
    have hhead := head?_of_taken (badUrlTail_append (c :: cs)) badUrlTail_taken hend
    obtain ⟨es, hes⟩ := List.head?_eq_some_iff.mp (hhead.trans List.head?_cons)
    rw [hes] at hrest ⊢
    rw [← hrest]
    refine urlTail_breaks hclose (fun hc => ?_) hblank hbreaks
    subst hc
    simp only [decide_true, Bool.true_and, Bool.not_eq_true] at hescape
    cases cs with
    | nil =>
      obtain rfl := hend rfl
      obtain rfl : es = [] := by simpa [badUrlTail] using hes.symm
      rfl
    | cons d cs =>
      obtain ⟨fs, rfl⟩ : ∃ fs, es = d :: fs := ⟨_, by simpa [badUrlTail] using hes.symm⟩
      exact hescape
  | case6 c cs hclose hescape hblank hbreaks ih =>
    rw [Stretch.after_inFrontOf, ← ih hend]
    exact urlTail_plain hclose hblank hbreaks

end CssWorkbench
