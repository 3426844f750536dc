import CssWorkbench.Proofs.Color.CalcGrammar

/-!
# Calculations are read by their grammar

The reader takes a factor, a product or a sum off the front of some tokens. What it takes is
spelled there by a tree of that layer with the value that the reader gives, and every tree that is
spelled at the front and has a value is read. The two directions meet in `evaluate_eq_some_iff`.

A closing parenthesis may be missing only where nothing follows. Both directions carry this along:
`missing` stands for the parentheses that have to be supplied behind the tokens that were read.
-/

namespace CssWorkbench.Calc

variable {scope : Scope} {room n : Nat} {layer : Layer} {op : Operator} {e l r : Expr} {t : Token}
  {v x y : Float} {ts us whole rest used missing : List Token}
  {operator? : Token → Option (Float → Float → Option Float)}
  {operand : (ts : List Token) → Option (Reading ts.length)}

/-- The value of a reading and what it leaves. -/
def Reading.result (r : Reading n) : Float × List Token := (r.value, r.rest)

/-- How the reader reads a layer. -/
def readLayer (scope : Scope) (room : Nat) :
    Layer → (ts : List Token) → Option (Reading ts.length)
  | .sum => readSum (readFactor scope room)
  | .product => readChain productOperator? (readFactor scope room)
  | .factor => readFactor scope room

/-! ## What is read is spelled -/

/-- The tree `e` with the value `v` is spelled at the front of `ts`, in front of `rest`. Closing
parentheses are missing behind it only if nothing is left. -/
structure Stands (scope : Scope) (room : Nat) (layer : Layer) (e : Expr) (v : Float)
    (ts rest : List Token) : Prop where
  spelled : ∃ used missing, ts = used ++ rest ∧ AllClosing missing ∧
    (rest ≠ [] → missing = []) ∧ Spells layer e (used ++ missing)
  fits : e.openFactors ≤ room
  valued : e.value? scope = some v

/-- An operand that stands alone is spelled in the layer above as well. -/
theorem Stands.alone (h : Stands scope room layer.operand e v ts rest) (hlayer : layer ≠ .factor) :
    Stands scope room layer e v ts rest := by
  obtain ⟨used, missing, hts, hmissing, hrest, hspells⟩ := h.spelled
  refine ⟨⟨used, missing, hts, hmissing, hrest, ?_⟩, h.fits, h.valued⟩
  cases layer with
  | sum => exact .product hspells
  | product => exact .factor hspells
  | factor => exact absurd rfl hlayer

/-- An operand behind an operator is joined to what stands in front of it. -/
theorem Stands.binary (hleft : Stands scope room op.layer l x whole (t :: ts))
    (hsign : isOperator t op.sign = true)
    (hright : Stands scope room op.layer.operand r y ts rest) (hvalue : op.combine? x y = some v) :
    Stands scope room op.layer (.binary op l r) v whole rest := by
  obtain ⟨front, supplied, hwhole, -, hnone, hl⟩ := hleft.spelled
  obtain ⟨used, missing, hts, hmissing, hrest, hr⟩ := hright.spelled
  obtain rfl := hnone (List.cons_ne_nil _ _)
  rw [List.append_nil] at hl
  refine ⟨⟨front ++ t :: used, missing, ?_, hmissing, hrest, ?_⟩, ?_, ?_⟩
  · rw [hwhole, hts, List.append_assoc, List.cons_append]
  · rw [List.append_assoc, List.cons_append]
    exact .binary rfl hl hsign hr
  · exact Nat.max_le.mpr ⟨hleft.fits, hright.fits⟩
  · rw [Expr.value?, hleft.valued, hright.valued]
    exact hvalue

/-- A sign in front of a factor makes a factor. -/
theorem Stands.signed {sign : Expr → Expr} {negate : Float → Float}
    (h : Stands scope room .factor e v ts rest)
    (hspells : ∀ {us}, Spells .factor e us → Spells .factor (sign e) (t :: us))
    (hopen : (sign e).openFactors = e.openFactors + 1)
    (hvalue : (sign e).value? scope = (e.value? scope).map negate) :
    Stands scope (room + 1) .factor (sign e) (negate v) (t :: ts) rest := by
  obtain ⟨used, missing, hts, hmissing, hrest, hspelled⟩ := h.spelled
  refine ⟨⟨t :: used, missing, by rw [hts]; rfl, hmissing, hrest, hspells hspelled⟩, ?_, ?_⟩
  · rw [hopen]
    exact Nat.succ_le_succ h.fits
  · rw [hvalue, h.valued]
    rfl

/-- What the loop over the operators of a layer adds to the tree in front of it. -/
theorem Stands.goesOn (hoperator : operator? = layer.operator?)
    (hoperand : ∀ {us} {right : Reading us.length}, operand us = some right →
      ∃ r, Stands scope room layer.operand r right.value us right.rest)
    (hleft : Stands scope room layer l v whole ts) {more : Reading (ts.length + 1)}
    (h : readMore operator? operand v ts = some more) :
    ∃ e, Stands scope room layer e more.value whole more.rest := by
  fun_induction readMore operator? operand v ts generalizing l with
  | case1 v =>
    obtain rfl := Option.some.inj h
    exact ⟨l, hleft⟩
  | case2 v t ts hnone =>
    obtain rfl := Option.some.inj h
    exact ⟨l, hleft⟩
  | case3 => cases h
  | case4 => cases h
  | case5 v t ts combine hcombine right hright v' hvalue _ ih =>
    obtain ⟨next, hnext, rfl⟩ := Option.map_eq_some_iff.mp h
    rw [hoperator] at hcombine
    obtain ⟨op, rfl, hsign, rfl⟩ := operator?_eq_some_iff.mp hcombine
    obtain ⟨r, hr⟩ := hoperand hright
    exact ih (hleft.binary hsign hr hvalue) hnext

/-- What is read in a layer above the factors starts with an operand. -/
theorem exists_stands_of_readChain (layer : Layer) (hoperator : operator? = layer.operator?)
    (hlayer : layer ≠ .factor)
    (hoperand : ∀ {us} {right : Reading us.length}, operand us = some right →
      ∃ r, Stands scope room layer.operand r right.value us right.rest)
    {chain : Reading ts.length} (h : readChain operator? operand ts = some chain) :
    ∃ e, Stands scope room layer e chain.value ts chain.rest := by
  unfold readChain at h
  split at h
  · cases h
  · rename_i first hfirst
    obtain ⟨more, hmore, rfl⟩ := Option.map_eq_some_iff.mp h
    obtain ⟨l, hl⟩ := hoperand hfirst
    exact (hl.alone hlayer).goesOn hoperator hoperand hmore

/-- If factors are spelled, then so are sums. -/
theorem exists_stands_of_readSum {factor : (ts : List Token) → Option (Reading ts.length)}
    (hfactor : ∀ {us} {right : Reading us.length}, factor us = some right →
      ∃ e, Stands scope room .factor e right.value us right.rest)
    {sum : Reading ts.length} (h : readSum factor ts = some sum) :
    ∃ e, Stands scope room .sum e sum.value ts sum.rest :=
  exists_stands_of_readChain .sum rfl (by decide)
    (fun hproduct => exists_stands_of_readChain .product rfl (by decide) hfactor
      hproduct) h

/-- A sum in parentheses is a factor. -/
theorem exists_stands_of_readClosed {factor : (ts : List Token) → Option (Reading ts.length)}
    (hfactor : ∀ {us} {right : Reading us.length}, factor us = some right →
      ∃ e, Stands scope room .factor e right.value us right.rest)
    (hopens : OpensGroup t) {closed : Reading ts.length} (h : readClosed factor ts = some closed) :
    ∃ e, Stands scope (room + 1) .factor e closed.value (t :: ts) closed.rest := by
  have hspelled : ∀ {e used missing u}, Spells .sum e (used ++ missing) → u.kind = .rparen →
      Spells .factor (.group e) (t :: used ++ (missing ++ [u])) := by
    intro e used missing u hbody hclose
    rw [List.cons_append, ← List.append_assoc]
    exact .group hopens hbody hclose
  unfold readClosed at h
  split at h
  · cases h
  · rename_i sum hsum
    obtain ⟨e, he⟩ := exists_stands_of_readSum hfactor hsum
    obtain ⟨used, missing, hts, hmissing, hnone, hspells⟩ := he.spelled
    have hfits : (Expr.group e).openFactors ≤ room + 1 := Nat.succ_le_succ he.fits
    split at h
    · -- nothing follows, so that one more parenthesis is supplied
      rename_i hrest
      obtain rfl := Option.some.inj h
      refine ⟨.group e, ⟨⟨t :: used, missing ++ [⟨.rparen, default, ")"⟩], ?_, ?_, ?_, ?_⟩,
        hfits, he.valued⟩⟩
      · exact congrArg (t :: ·) hts
      · simpa [AllClosing, or_imp, forall_and] using hmissing
      · exact fun hne => absurd hrest hne
      · exact hspelled hspells rfl
    · rename_i u rest hrest
      split at h
      · rename_i hclose
        obtain rfl := Option.some.inj h
        obtain rfl := hnone (by rw [hrest]; exact List.cons_ne_nil _ _)
        refine ⟨.group e, ⟨⟨t :: used ++ [u], [], ?_, ?_, fun _ => rfl, ?_⟩, hfits, he.valued⟩⟩
        · rw [hrest] at hts
          exact (congrArg (t :: ·) hts).trans (by simp)
        · exact fun _ hu => absurd hu List.not_mem_nil
        · rw [List.append_nil]
          exact hspelled hspells (by simpa [Token.is] using hclose)
      · cases h

/-- The factor that is read is spelled by the tokens that it takes, and has the value that is
given. -/
theorem exists_stands_of_readFactor {factor : Reading ts.length}
    (h : readFactor scope room ts = some factor) :
    ∃ e, Stands scope room .factor e factor.value ts factor.rest := by
  induction room generalizing ts with
  | zero => cases h
  | succ room ih =>
    cases ts with
    | nil => cases h
    | cons t ts =>
      have hleaf : ∀ {value : Option Float}, IsLeaf t → leafValue? scope t = value →
          (value.map fun value => (⟨value, ts, by simp⟩ : Reading (t :: ts).length)) =
            some factor → ∃ e, Stands scope (room + 1) .factor e factor.value (t :: ts)
              factor.rest := by
        intro value hleaf hvalue hread
        obtain ⟨v, rfl, rfl⟩ := Option.map_eq_some_iff.mp hread
        exact ⟨.leaf t, ⟨[t], [], rfl, fun _ hu => absurd hu List.not_mem_nil, fun _ => rfl,
          .leaf hleaf⟩, Nat.succ_le_succ (Nat.zero_le room), hvalue⟩
      simp only [readFactor] at h
      split at h
      · rename_i hkind
        exact hleaf (.inl hkind) (if_neg (by rw [hkind]; decide)) h
      · rename_i hkind
        exact hleaf (.inr (.inl hkind)) (if_neg (by rw [hkind]; decide)) h
      · rename_i hkind
        exact hleaf (.inr (.inr (.inl hkind))) (if_neg (by rw [hkind]; decide)) h
      · rename_i hkind
        exact hleaf (.inr (.inr (.inr hkind))) (if_pos hkind) h
      · rename_i hkind
        obtain ⟨closed, hclosed, rfl⟩ := Option.map_eq_some_iff.mp h
        exact exists_stands_of_readClosed ih (.inl hkind) hclosed
      · split at h
        · rename_i hcalc
          obtain ⟨closed, hclosed, rfl⟩ := Option.map_eq_some_iff.mp h
          exact exists_stands_of_readClosed ih (.inr hcalc) hclosed
        · cases h
      · split at h
        · rename_i hsign
          obtain ⟨inner, hinner, rfl⟩ := Option.map_eq_some_iff.mp h
          obtain ⟨e, he⟩ := ih hinner
          exact ⟨.negative e, he.signed (.negative hsign) rfl rfl⟩
        · split at h
          · rename_i hsign
            obtain ⟨inner, hinner, rfl⟩ := Option.map_eq_some_iff.mp h
            obtain ⟨e, he⟩ := ih hinner
            exact ⟨.positive e, he.signed (.positive hsign) rfl Option.map_id'.symm⟩
          · cases h
      · cases h

/-! ## What is spelled is read -/

/-- No operator stands at the front. -/
def Stops (operator? : Token → Option (Float → Float → Option Float)) (ts : List Token) : Prop :=
  ∀ t ∈ ts.head?, operator? t = none

/-- A chain stops where no tokens are left. -/
theorem stops_nil : Stops operator? [] := by
  simp [Stops]

/-- A chain stops in front of what is no operator of its layer. -/
theorem stops_cons_iff : Stops operator? (t :: ts) ↔ operator? t = none := by
  simp [Stops]

/-- The loop over the operators ends where none stands. -/
theorem readMore_of_stops (h : Stops operator? ts) :
    (readMore operator? operand v ts).map Reading.result = some (v, ts) := by
  cases ts with
  | nil =>
    rw [readMore]
    rfl
  | cons t ts =>
    rw [readMore, stops_cons_iff.mp h]
    rfl

/-- The loop goes on behind an operator and its operand. -/
theorem readMore_cons {combine : Float → Float → Option Float}
    (hcombine : operator? t = some combine)
    (hoperand : (operand ts).map Reading.result = some (y, rest)) (hvalue : combine x y = some v) :
    (readMore operator? operand x (t :: ts)).map Reading.result =
      (readMore operator? operand v rest).map Reading.result := by
  obtain ⟨right, hright, hresult⟩ := Option.map_eq_some_iff.mp hoperand
  obtain ⟨rfl, rfl⟩ := Prod.mk.inj hresult
  rw [readMore]
  simp only [hcombine, hright, hvalue, Option.map_map]
  rfl

/-- A layer above the factors is read by its first operand and the loop behind it. -/
theorem readChain_result (hoperand : (operand ts).map Reading.result = some (x, rest)) :
    (readChain operator? operand ts).map Reading.result =
      (readMore operator? operand x rest).map Reading.result := by
  obtain ⟨first, hfirst, hresult⟩ := Option.map_eq_some_iff.mp hoperand
  obtain ⟨rfl, rfl⟩ := Prod.mk.inj hresult
  simp only [readChain, hfirst, Option.map_map]
  rfl

/-- What the reader of a layer makes of a tree with the value `v` in front of `rest`: a factor is
done, a product goes on with the operators behind it, and so does a sum, where no product can. -/
def ReadOn (scope : Scope) (room : Nat) (v : Float) (rest : List Token) :
    Layer → Option (Float × List Token) → Prop
  | .factor, read => read = some (v, rest)
  | .product, read =>
    read = (readMore productOperator? (readFactor scope room) v rest).map Reading.result
  | .sum, read => Stops productOperator? rest →
    read = (readMore sumOperator? (readLayer scope room .product) v rest).map Reading.result

/-- A token that closes nothing is not among the parentheses that are supplied. -/
theorem exists_of_append_cons_eq {front behind : List Token} (hmissing : AllClosing missing)
    (ht : t.kind ≠ .rparen) (h : front ++ t :: behind = used ++ missing) :
    ∃ inner, used = front ++ t :: inner ∧ behind = inner ++ missing := by
  induction front generalizing used with
  | nil =>
    cases used with
    | nil =>
      rw [List.nil_append, List.nil_append] at h
      exact absurd (hmissing t (h ▸ List.mem_cons_self)) ht
    | cons u used =>
      obtain ⟨rfl, hbehind⟩ := List.cons.inj h
      exact ⟨used, rfl, hbehind⟩
  | cons a front ih =>
    cases used with
    | nil =>
      rw [List.nil_append] at h
      have hmem : t ∈ missing := h ▸ List.mem_append_right _ List.mem_cons_self
      exact absurd (hmissing t hmem) ht
    | cons u used =>
      obtain ⟨rfl, htail⟩ := List.cons.inj h
      obtain ⟨inner, rfl, hbehind⟩ := ih htail
      exact ⟨inner, rfl, hbehind⟩

/-- Parentheses around a sum are read as a factor, also if the closing one is supplied. -/
theorem readClosed_result {factor : (ts : List Token) → Option (Reading ts.length)} {u : Token}
    (hclose : u.kind = .rparen)
    (h : ts ++ [u] = used ++ missing) (hmissing : AllClosing missing)
    (hnone : rest ≠ [] → missing = [])
    (hbody : ∀ {used missing rest}, ts = used ++ missing → AllClosing missing →
      (rest ≠ [] → missing = []) → Stops productOperator? rest → Stops sumOperator? rest →
      (readSum factor (used ++ rest)).map Reading.result = some (v, rest)) :
    (readClosed factor (used ++ rest)).map Reading.result = some (v, rest) := by
  rcases List.eq_nil_or_concat missing with rfl | ⟨front, last, rfl⟩
  · -- the closing parenthesis stands in the text
    obtain rfl : ts ++ [u] = used := by simpa using h
    have hkind : u.kind ≠ .delim := by rw [hclose]; decide
    have hread := @hbody ts [] (u :: rest) (List.append_nil ts).symm hmissing (fun _ => rfl)
      (stops_cons_iff.mpr (operator?_eq_none_of_kind .product hkind))
      (stops_cons_iff.mpr (operator?_eq_none_of_kind .sum hkind))
    obtain ⟨sum, hsum, hresult⟩ := Option.map_eq_some_iff.mp hread
    obtain ⟨rfl, hrest⟩ := Prod.mk.inj hresult
    rw [List.append_assoc, List.singleton_append, readClosed, hsum]
    simp only
    split
    · rename_i hempty
      rw [hempty] at hrest
      cases hrest
    · rename_i u' behind hcons
      rw [hcons] at hrest
      obtain ⟨rfl, rfl⟩ := List.cons.inj hrest
      rw [if_pos (by simpa [Token.is] using hclose)]
      rfl
  · -- it is one of those that are supplied
    have hempty : rest = [] := by
      cases rest with
      | nil => rfl
      | cons _ _ => exact absurd (hnone (List.cons_ne_nil _ _)) (by simp)
    subst hempty
    rw [List.concat_eq_append, ← List.append_assoc] at h
    obtain ⟨hts, -⟩ := List.append_inj' h rfl
    have hfront : AllClosing front := fun w hw => hmissing w (by simp [hw])
    have hread := hbody hts hfront (fun hne => absurd rfl hne) stops_nil stops_nil
    obtain ⟨sum, hsum, hresult⟩ := Option.map_eq_some_iff.mp hread
    obtain ⟨rfl, hrest⟩ := Prod.mk.inj hresult
    rw [readClosed, hsum]
    simp only
    split
    · rw [← hresult]
      rfl
    · rename_i hcons
      rw [hcons] at hrest
      cases hrest

/-- A leaf is read for its value. -/
theorem readFactor_leaf (h : IsLeaf t) :
    (readFactor scope (room + 1) (t :: ts)).map Reading.result =
      (leafValue? scope t).map fun value => (value, ts) := by
  rcases h with hkind | hkind | hkind | hkind <;>
    simp only [readFactor, leafValue?, hkind, reduceCtorEq, if_true, if_false, Option.map_map] <;>
    rfl

/-- A plus in front of a factor changes nothing. -/
theorem readFactor_positive (h : t.isDelim '+' = true) :
    (readFactor scope (room + 1) (t :: ts)).map Reading.result =
      (readFactor scope room ts).map Reading.result := by
  simp only [readFactor, Token.kind_of_isDelim h, isDelim_of_ne h (show '+' ≠ '-' by decide), h, if_true,
    Bool.false_eq_true, if_false, Option.map_map]
  rfl

/-- A minus in front of a factor turns its value around. -/
theorem readFactor_negative (h : t.isDelim '-' = true) :
    (readFactor scope (room + 1) (t :: ts)).map Reading.result =
      ((readFactor scope room ts).map Reading.result).map fun read => (-read.1, read.2) := by
  simp only [readFactor, Token.kind_of_isDelim h, h, if_true, Option.map_map]
  rfl

/-- Behind a parenthesis a sum is read up to the closing one. -/
theorem readFactor_group (h : OpensGroup t) :
    (readFactor scope (room + 1) (t :: ts)).map Reading.result =
      (readClosed (readFactor scope room) ts).map Reading.result := by
  rcases h with hkind | hcalc
  · simp only [readFactor, hkind, Option.map_map]
    rfl
  · simp only [readFactor, kind_of_isFunction hcalc, hcalc, if_true, Option.map_map]
    rfl

/-- Reading what is spelled gives the value of the tree, and goes on behind it. -/
theorem Spells.readOn (h : Spells layer e ts) (hts : ts = used ++ missing)
    (hmissing : AllClosing missing) (hnone : rest ≠ [] → missing = [])
    (hfits : e.openFactors ≤ room) (hvalue : e.value? scope = some v) :
    ReadOn scope room v rest layer
      ((readLayer scope room layer (used ++ rest)).map Reading.result) := by
  induction h generalizing used missing rest room v with
  | @leaf t leaf =>
    obtain ⟨inner, rfl, hinner⟩ := exists_of_append_cons_eq hmissing (kind_of_isLeaf leaf)
      (show [] ++ t :: [] = used ++ missing from hts)
    obtain rfl := (List.append_eq_nil_iff.mp hinner.symm).1
    obtain ⟨inside, rfl⟩ := Nat.exists_eq_succ_of_ne_zero (Nat.ne_zero_of_lt hfits)
    have hread : leafValue? scope t = some v := hvalue
    exact (readFactor_leaf leaf).trans (by rw [hread]; rfl)
  | @positive t e ts sign operand ih =>
    obtain ⟨inner, rfl, hinner⟩ := exists_of_append_cons_eq hmissing
      (by rw [Token.kind_of_isDelim sign]; decide) (show [] ++ t :: ts = used ++ missing from hts)
    obtain ⟨inside, rfl⟩ := Nat.exists_eq_succ_of_ne_zero (Nat.ne_zero_of_lt hfits)
    have hread := ih hinner hmissing hnone (Nat.le_of_succ_le_succ hfits) hvalue
    exact (readFactor_positive sign).trans hread
  | @negative t e ts sign operand ih =>
    obtain ⟨inner, rfl, hinner⟩ := exists_of_append_cons_eq hmissing
      (by rw [Token.kind_of_isDelim sign]; decide) (show [] ++ t :: ts = used ++ missing from hts)
    obtain ⟨inside, rfl⟩ := Nat.exists_eq_succ_of_ne_zero (Nat.ne_zero_of_lt hfits)
    obtain ⟨x, hx, rfl⟩ := Option.map_eq_some_iff.mp hvalue
    have hread : (readFactor scope inside (inner ++ rest)).map Reading.result = some (x, rest) :=
      ih hinner hmissing hnone (Nat.le_of_succ_le_succ hfits) hx
    change (readFactor scope (inside + 1) (t :: (inner ++ rest))).map Reading.result =
      some (-x, rest)
    rw [readFactor_negative sign, hread, Option.map_some]
  | @group t u e ts opens body closes ih =>
    obtain ⟨inner, rfl, hinner⟩ := exists_of_append_cons_eq hmissing (kind_of_opensGroup opens)
      (show [] ++ t :: (ts ++ [u]) = used ++ missing from hts)
    obtain ⟨inside, rfl⟩ := Nat.exists_eq_succ_of_ne_zero (Nat.ne_zero_of_lt hfits)
    refine (readFactor_group opens).trans (readClosed_result closes hinner hmissing hnone
      fun hts hmissing hnone hproduct hsum => ?_)
    rw [← readMore_of_stops hsum]
    exact ih hts hmissing hnone (Nat.le_of_succ_le_succ hfits) hvalue hproduct
  | factor alone ih => exact readChain_result (ih hts hmissing hnone hfits hvalue)
  | product alone ih =>
    intro hstops
    refine readChain_result ?_
    rw [← readMore_of_stops hstops]
    exact ih hts hmissing hnone hfits hvalue
  | @binary layer op l r t ts us joins left sign right ihl ihr =>
    subst joins
    obtain ⟨inner, rfl, hinner⟩ :=
      exists_of_append_cons_eq hmissing (by rw [kind_of_isOperator sign]; decide) hts
    obtain ⟨x, hx, hvalue⟩ := Option.bind_eq_some_iff.mp hvalue
    obtain ⟨y, hy, hvalue⟩ := Option.bind_eq_some_iff.mp hvalue
    have hcombine := operator?_eq_some_iff.mpr ⟨op, rfl, sign, rfl⟩
    have hleft := @ihl room x (t :: (inner ++ rest)) ts [] (List.append_nil ts).symm
      (fun _ hu => absurd hu List.not_mem_nil) (fun _ => rfl)
      (Nat.le_trans (Nat.le_max_left ..) hfits) hx
    have hright := ihr hinner hmissing hnone (Nat.le_trans (Nat.le_max_right ..) hfits) hy
    rw [List.append_assoc, List.cons_append]
    cases hlayer : op.layer with
    | sum =>
      rw [hlayer] at hleft hright hcombine
      intro hstops
      have hproduct := operator?_eq_none .product sign (by rw [hlayer]; decide)
      rw [hleft (stops_cons_iff.mpr hproduct)]
      refine readMore_cons hcombine ?_ hvalue
      rw [← readMore_of_stops hstops]
      exact hright
    | product =>
      rw [hlayer] at hleft hright hcombine
      exact hleft.trans (readMore_cons hcombine hright hvalue)
    | factor => cases op <;> cases hlayer

/-- A calculation has the value `v` exactly if its tokens, blanks and comments aside, spell a sum
of the grammar, of which at most thirty-two factors are open at once and which has that value, and
the value is finite. -/
theorem evaluate_eq_some_iff (scope : Scope) (tokens : List Token) (v : Float) :
    evaluate scope tokens = some v ↔ ∃ e : Expr, e.SpelledBy (significant tokens) ∧
      e.openFactors ≤ 32 ∧ e.value? scope = some v ∧ v.isFinite = true := by
  constructor
  · intro h
    unfold evaluate at h
    simp only at h
    split at h
    · cases h
    · rename_i sum hsum
      split at h
      · rename_i hdone
        simp only [Bool.and_eq_true, List.isEmpty_iff] at hdone
        obtain rfl := Option.some.inj h
        obtain ⟨e, he⟩ := exists_stands_of_readSum exists_stands_of_readFactor hsum
        obtain ⟨used, missing, hts, hmissing, -, hspells⟩ := he.spelled
        rw [hdone.1, List.append_nil] at hts
        exact ⟨e, ⟨missing, hmissing, hts ▸ hspells⟩, he.fits, he.valued, hdone.2⟩
      · cases h
  · rintro ⟨e, ⟨missing, hmissing, hspells⟩, hfits, hvalue, hfinite⟩
    have hread := hspells.readOn rfl hmissing (fun hne => absurd rfl hne) hfits hvalue stops_nil
    rw [readMore_of_stops stops_nil, List.append_nil] at hread
    obtain ⟨sum, hsum, hresult⟩ := Option.map_eq_some_iff.mp hread
    obtain ⟨rfl, hrest⟩ := Prod.mk.inj hresult
    have hsum' : readSum (readFactor scope maxOpen) (significant tokens) = some sum := hsum
    simp only [evaluate, hsum', hrest, hfinite, List.isEmpty_nil, Bool.and_self, if_true]

end CssWorkbench.Calc
