/-!
# Dictionaries

Values by keys, each key once, in the order in which the keys came in. A key that gets a new value
keeps its place; one that was erased and comes back goes to the end.
-/

namespace CssWorkbench

/-- Values by keys. -/
abbrev Dictionary (κ α : Type) := List (κ × α)

namespace Dictionary

variable {κ α : Type} [DecidableEq κ]

/-- The value of a key. -/
def get? : Dictionary κ α → κ → Option α
  | [], _ => none
  | (k, v) :: rest, key => if k = key then some v else get? rest key

/-- Give a key a value, in the place of the one it had. -/
def put : Dictionary κ α → κ → α → Dictionary κ α
  | [], key, value => [(key, value)]
  | (k, v) :: rest, key, value =>
    if k = key then (k, value) :: rest else (k, v) :: put rest key value

/-- Take a key out. -/
def erase (d : Dictionary κ α) (key : κ) : Dictionary κ α :=
  d.filter fun p => p.1 ≠ key

/-- Whether a key has a value. -/
def has (d : Dictionary κ α) (key : κ) : Bool :=
  (d.get? key).isSome

/-- A key that is put has the new value, and every other key the one it had. -/
theorem get?_put (d : Dictionary κ α) (key wanted : κ) (value : α) :
    (d.put key value).get? wanted = if key = wanted then some value else d.get? wanted := by
  induction d with
  | nil => rfl
  | cons p rest ih =>
    obtain ⟨k, v⟩ := p
    by_cases h : k = key
    · subst h
      by_cases hw : k = wanted <;> simp [put, get?, hw]
    · by_cases hw : k = wanted
      · subst hw
        have : ¬key = k := fun e => h e.symm
        simp [put, get?, h, this]
      · simp [put, get?, h, hw, ih]

/-- A key that gets the value it has leaves everything as it is. -/
theorem put_of_get? {d : Dictionary κ α} {key : κ} {value : α} (h : d.get? key = some value) :
    d.put key value = d := by
  induction d with
  | nil => cases h
  | cons p rest ih =>
    obtain ⟨k, v⟩ := p
    by_cases hk : k = key
    · simp only [get?, hk, if_true, Option.some.injEq] at h
      simp only [put, hk, if_true, h]
    · simp only [get?, hk, if_false] at h
      simp only [put, hk, if_false, ih h]

/-- A key that is taken out has no value, and every other key the one it had. -/
theorem get?_erase (d : Dictionary κ α) (key wanted : κ) :
    (d.erase key).get? wanted = if key = wanted then none else d.get? wanted := by
  induction d with
  | nil => simp [erase, get?]
  | cons p rest ih =>
    obtain ⟨k, v⟩ := p
    simp only [erase] at ih ⊢
    by_cases h : k = key
    · subst h
      by_cases hw : k = wanted
      · simpa [hw] using ih
      · simpa [get?, hw] using ih
    · by_cases hw : k = wanted
      · subst hw
        have : ¬key = k := fun e => h e.symm
        simp [get?, h, this]
      · simpa [get?, h, hw] using ih

/-! ## Keys -/

/-- The keys that have a value, in the order in which they came in. -/
def keys (d : Dictionary κ α) : List κ := d.map Prod.fst

variable {d e : Dictionary κ α} {key : κ} {value : α}

omit [DecidableEq κ] in
/-- Nothing has a value at first. -/
@[simp] theorem keys_nil : keys ([] : Dictionary κ α) = [] := rfl

omit [DecidableEq κ] in
/-- The key of the first pair is the first of the keys. -/
@[simp] theorem keys_cons (p : κ × α) (rest : Dictionary κ α) :
    keys (p :: rest) = p.1 :: keys rest := rfl

/-- A value that is found stands with its key. -/
theorem mem_of_get? (h : d.get? key = some value) : (key, value) ∈ d := by
  induction d with
  | nil => cases h
  | cons p rest ih =>
    obtain ⟨k, v⟩ := p
    by_cases hk : k = key
    · simp only [get?, hk, if_true, Option.some.injEq] at h
      simp [hk, h]
    · simp only [get?, hk, if_false] at h
      exact List.mem_cons_of_mem _ (ih h)

omit [DecidableEq κ] in
/-- A key that stands with a value is one of the keys. -/
theorem mem_keys_of_mem (h : (key, value) ∈ d) : key ∈ d.keys :=
  List.mem_map_of_mem h

/-- Only what is no key has no value. -/
theorem get?_eq_none_iff : d.get? key = none ↔ key ∉ d.keys := by
  induction d with
  | nil => simp [get?]
  | cons p rest ih =>
    obtain ⟨k, v⟩ := p
    by_cases hk : k = key
    · simp [get?, hk]
    · have hk' : ¬key = k := fun e => hk e.symm
      simpa [get?, hk, hk'] using ih

/-- Where each key is there once, the value that stands with a key is found. -/
theorem get?_of_mem (hd : d.keys.Nodup) (h : (key, value) ∈ d) : d.get? key = some value := by
  induction d with
  | nil => cases h
  | cons p rest ih =>
    obtain ⟨k, v⟩ := p
    obtain ⟨hnew, hrest⟩ := List.nodup_cons.mp hd
    cases h with
    | head => simp [get?]
    | tail _ h =>
      have hk : k ≠ key := fun e => hnew (e ▸ mem_keys_of_mem h)
      simpa [get?, hk] using ih hrest h

/-- Where each key is there once, what is found is what stands there. -/
theorem get?_eq_some_iff (hd : d.keys.Nodup) : d.get? key = some value ↔ (key, value) ∈ d :=
  ⟨mem_of_get?, get?_of_mem hd⟩

/-- The order of the pairs does not matter to look-up, as long as each key is there once. -/
theorem get?_of_perm (hd : d.keys.Nodup) (h : e.Perm d) : e.get? key = d.get? key := by
  have he : e.keys.Nodup := (h.map Prod.fst).nodup_iff.mpr hd
  refine Option.ext fun value => ?_
  rw [get?_eq_some_iff he, get?_eq_some_iff hd, h.mem_iff]

/-- A key that is put stays in its place, or comes behind the others. -/
theorem keys_put (d : Dictionary κ α) (key : κ) (value : α) :
    (d.put key value).keys = if key ∈ d.keys then d.keys else d.keys ++ [key] := by
  induction d with
  | nil => simp [put]
  | cons p rest ih =>
    obtain ⟨k, v⟩ := p
    by_cases hk : k = key
    · simp [put, hk]
    · have hk' : ¬key = k := fun e => hk e.symm
      simp only [put, hk, if_false, keys_cons, ih, List.mem_cons, hk', false_or]
      split <;> rfl

/-- Each key is there once after a value was put. -/
theorem nodup_keys_put (hd : d.keys.Nodup) (key : κ) (value : α) :
    (d.put key value).keys.Nodup := by
  rw [keys_put]
  split
  · exact hd
  · next hnew =>
    refine List.nodup_append.mpr ⟨hd, List.nodup_cons.mpr ⟨by simp, List.nodup_nil⟩, ?_⟩
    intro k hk k' hk' e
    exact hnew (List.mem_singleton.mp hk' ▸ e ▸ hk)

/-- Each key is there once after a key was taken out. -/
theorem nodup_keys_erase (hd : d.keys.Nodup) (key : κ) : (d.erase key).keys.Nodup :=
  hd.sublist (List.filter_sublist.map Prod.fst)

/-! ## Values put one after the other -/

variable {δ : Type}

/-- Of the values put at one key the last one counts. -/
theorem get?_foldl_put (items : List δ) (keyOf : δ → κ) (valueOf : δ → α) (d : Dictionary κ α)
    (wanted : κ) :
    (items.foldl (fun d item => d.put (keyOf item) (valueOf item)) d).get? wanted =
      (((items.filter fun item => keyOf item = wanted).getLast?).map valueOf).or (d.get? wanted) := by
  induction items generalizing d with
  | nil => rfl
  | cons item items ih =>
    rw [List.foldl_cons, ih, get?_put]
    by_cases h : keyOf item = wanted
    · rw [List.filter_cons_of_pos (by simpa using h), List.getLast?_cons, if_pos h]
      cases (items.filter fun item => keyOf item = wanted).getLast? <;> rfl
    · rw [List.filter_cons_of_neg (by simpa using h), if_neg h]

/-- Each key is there once after some values were put. -/
theorem nodup_keys_foldl_put (hd : d.keys.Nodup) (items : List δ) (keyOf : δ → κ)
    (valueOf : δ → α) :
    (items.foldl (fun d item => d.put (keyOf item) (valueOf item)) d).keys.Nodup := by
  induction items generalizing d with
  | nil => exact hd
  | cons item items ih => exact ih (nodup_keys_put hd _ _)

end Dictionary

end CssWorkbench
