import CssWorkbench.Outline.Selection

/-!
# Chains in one list of links

Chains that are kept in one list of links do not mix. A link only leads to links in front of it, so
that a chain stays what it was when others are put behind it, and a chain that is put behind others
comes back as it was put in.
-/

namespace CssWorkbench

namespace SelectionChains

variable {c c' : SelectionChains} {more : List SelectionLink} {link : SelectionLink}
  {around : Option Nat} {spans : List Span} {index count : Nat}

/-- The chain of a link is its span and the chain of its parent. -/
theorem chain_of_link (h : c.links[index]? = some link) :
    c.chain index = link.span :: link.parent.elim [] c.chain := by
  rw [chain]
  split
  · rename_i hnone
    cases hnone.symm.trans h
  · rename_i found hfound
    obtain rfl := Option.some.inj (hfound.symm.trans h)
    split
    · rename_i hparent
      simp only [hparent, Option.elim_none]
    · rename_i parent hparent
      simp only [hparent, Option.elim_some]

/-- A chain stays the same when other links are put behind. -/
theorem chain_of_append (h : c'.links = c.links ++ more) (hlt : index < c.links.length) :
    c'.chain index = c.chain index := by
  induction index using Nat.strongRecOn with
  | ind index ih =>
    have hlink : c.links[index]? = some c.links[index] := List.getElem?_eq_getElem hlt
    have hlink' : c'.links[index]? = some c.links[index] := by
      rw [h, List.getElem?_append_left hlt, hlink]
    rw [chain_of_link hlink, chain_of_link hlink']
    cases hparent : c.links[index].parent with
    | none => rfl
    | some parent =>
      have hless := c.parent_lt index _ hlink parent hparent
      exact congrArg (_ :: ·) (ih parent hless (Nat.lt_trans hless hlt))

/-- There is a link for each span. -/
theorem length_linksFrom (count : Nat) (around : Option Nat) (spans : List Span) :
    (linksFrom count around spans).length = spans.length := by
  induction spans generalizing count around with
  | nil => rfl
  | cons span spans ih => simp [linksFrom, ih]

/-- From the last of some links outwards stand their spans, and then what is around the first. -/
theorem chain_of_linksFrom {front : List SelectionLink} {span : Span}
    (h : c.links = front ++ linksFrom front.length around (span :: spans)) :
    c.chain (front.length + spans.length) =
      (span :: spans).reverse ++ around.elim [] c.chain := by
  induction spans generalizing front around span with
  | nil =>
    have hlink : c.links[front.length]? = some ⟨span, around⟩ := by
      rw [h, List.getElem?_append_right (Nat.le_refl _), Nat.sub_self]
      rfl
    exact chain_of_link hlink
  | cons inner spans ih =>
    have hfront : c.links = (front ++ [(⟨span, around⟩ : SelectionLink)]) ++
        linksFrom (front ++ [(⟨span, around⟩ : SelectionLink)]).length (some front.length)
          (inner :: spans) := by
      rw [h, linksFrom, List.append_assoc, List.length_append]
      rfl
    have hlink : c.links[front.length]? = some ⟨span, around⟩ := by
      rw [h, List.getElem?_append_right (Nat.le_refl _), Nat.sub_self]
      rfl
    have hinner := ih hfront
    rw [List.length_append, Option.elim_some, chain_of_link hlink] at hinner
    rw [List.length_cons, ← Nat.add_assoc, Nat.add_right_comm, List.reverse_cons]
    rw [List.append_assoc]
    exact hinner

/-- Where every chain starts there is a link. -/
def Linked (c : SelectionChains) : Prop := ∀ index ∈ c.innermost, index < c.links.length

/-- Without links none is out of order. -/
theorem linked_empty : Linked empty := fun _ h => absurd h List.not_mem_nil

/-- Behind the other chains stands the one that is put in, and the others stay. -/
theorem chains_add (h : c.Linked) (hne : spans ≠ []) :
    (c.add spans).Linked ∧ (c.add spans).chains = c.chains ++ [spans.reverse] := by
  obtain ⟨span, inner, rfl⟩ := List.exists_cons_of_ne_nil hne
  have hlinks : (c.add (span :: inner)).links =
      c.links ++ linksFrom c.links.length none (span :: inner) := rfl
  have hinnermost : (c.add (span :: inner)).innermost =
      c.innermost ++ [c.links.length + inner.length] := rfl
  constructor
  · intro index hindex
    rw [hinnermost, List.mem_append, List.mem_singleton] at hindex
    rw [hlinks, List.length_append, length_linksFrom, List.length_cons]
    rcases hindex with hmem | rfl
    · have hlt := h index hmem
      omega
    · omega
  · have hnew := chain_of_linksFrom hlinks
    rw [Option.elim_none, List.append_nil] at hnew
    have hold : c.innermost.map (c.add (span :: inner)).chain = c.innermost.map c.chain :=
      List.map_congr_left fun index hindex => chain_of_append hlinks (h index hindex)
    rw [chains, hinnermost, List.map_append, List.map_singleton, hnew, hold, chains]

end SelectionChains

/-- The chains of some offsets are the chains of each. -/
theorem chains_selectionChains {sheet : Stylesheet} {source : String} {offsets : List Nat}
    (hne : ∀ offset ∈ offsets, sheet.selectionsAt source offset ≠ []) :
    (sheet.selectionChains source offsets).chains = offsets.map (sheet.selectionsAt source) := by
  have hall : ∀ c : SelectionChains, c.Linked →
      (offsets.foldl (fun c offset => c.add (sheet.selectionsAt source offset).reverse) c).chains =
        c.chains ++ offsets.map (sheet.selectionsAt source) := by
    induction offsets with
    | nil => exact fun c _ => (List.append_nil _).symm
    | cons offset offsets ih =>
      intro c hlinked
      rw [List.forall_mem_cons] at hne
      have hspans := List.reverse_ne_nil_iff.mpr hne.1
      obtain ⟨hlinked', hchains⟩ := SelectionChains.chains_add hlinked hspans
      rw [List.foldl_cons, ih hne.2 _ hlinked', hchains, List.reverse_reverse, List.append_assoc]
      rfl
  exact hall .empty SelectionChains.linked_empty

end CssWorkbench
