import Mathlib
import CssWorkbench.Proofs.Url.FileAddresses
import CssWorkbench.Proofs.Workspace.FilesBelow
import CssWorkbench.Proofs.Workspace.IndexConsistency

/-!
# What a search of a folder indexes

A search keeps the folders that are still to be looked through on a stack. It takes the last one
off, looks at its entries one by one, reads and indexes the stylesheets among them and puts the
folders that are searched on the stack, until none is left. As long as nobody else changes the files
and the index, it comes to what the recursion over the folder finds, and that is known file by file.
-/

namespace CssWorkbench

variable {U : Type} [DecidableEq U] [Addressing U] {path root : FilePath} {folders : List FilePath}
  {names here : List String} {name contents : String} {files t : FileTree}
  {entries : List (String × FileTree)} {found found' : List (FilePath × String)}
  {index index' index'' : PropertyIndex U} {uri : U} {skip : U → Bool} {s s' s'' : Search}

/-! ## The search with its stack -/

omit [DecidableEq U] in
/-- Where nothing is found there is nothing with an address. -/
@[simp] theorem addressed_nil : addressed skip [] = [] := rfl

omit [DecidableEq U] in
/-- What has an address is found part by part. -/
@[simp] theorem addressed_append : addressed skip (found ++ found') =
    addressed skip found ++ addressed skip found' :=
  List.filterMap_append

omit [Addressing U] in
/-- What is found is indexed part by part. -/
@[simp] theorem PropertyIndex.indexFound_append (index : PropertyIndex U) (f g : List (U × String)) :
    index.indexFound (f ++ g) = (index.indexFound f).indexFound g :=
  List.foldl_append

namespace Search

/-- Some turns lead from one state of a search, with an index, to another one. -/
def Leads (files : FileTree) (here : List String) (skip : U → Bool) (s : Search)
    (index : PropertyIndex U) (s' : Search) (index' : PropertyIndex U) : Prop :=
  ∃ n, turns files here skip n s index = some (s', index')

/-- No turn leads nowhere else. -/
theorem Leads.refl : Leads files here skip s index s index := ⟨0, rfl⟩

/-- One turn leads to what is there after it. -/
theorem Leads.of_turn (h : s.turn files here skip index = some (s', index')) :
    Leads files here skip s index s' index' :=
  ⟨1, by simp [turns, h]⟩

/-- Turns behind turns are turns. -/
theorem turns_add (n m : Nat) (s : Search) (index : PropertyIndex U) :
    turns files here skip (n + m) s index =
      (turns files here skip n s index).bind fun next =>
        turns files here skip m next.1 next.2 := by
  induction n generalizing s index with
  | zero => simp [turns]
  | succ n ih => simp only [Nat.succ_add, turns, Option.bind_assoc, ih]

/-- Turns that lead on lead all the way. -/
theorem Leads.trans (h : Leads files here skip s index s' index')
    (h' : Leads files here skip s' index' s'' index'') :
    Leads files here skip s index s'' index'' := by
  obtain ⟨n, hn⟩ := h
  obtain ⟨m, hm⟩ := h'
  exact ⟨n + m, by rw [turns_add, hn, Option.bind_some, hm]⟩

/-- A stylesheet in hand is read and indexed, if its path has an address. -/
theorem leads_file (skip : U → Bool) (hfile : files.at? path here = some (.text contents))
    (folders : List FilePath) (folder : FilePath) (entries : List (String × FileTree)) (count : Nat)
    (index : PropertyIndex U) :
    Leads files here skip ⟨folders, folder, entries, some (path, none), count⟩ index
      ⟨folders, folder, entries, none, count + ((Addressing.ofFile? (U := U) path).toList).length⟩
      (((Addressing.ofFile? path).map fun uri => index.indexText uri contents).getD index) := by
  have hread : Leads files here skip ⟨folders, folder, entries, some (path, none), count⟩ index
      ⟨folders, folder, entries, some (path, some contents), count⟩ index :=
    Leads.of_turn (by simp [turn, textAt?, hfile])
  refine hread.trans (Leads.of_turn ?_)
  cases huri : Addressing.ofFile? (U := U) path <;> simp [turn, PropertyIndex.indexAt?, huri]

/-- An entry is looked at: a stylesheet that is not one to skip is indexed, and a folder that is
searched is put on the stack. -/
theorem leads_entry (hentry : files.at? (path.child name) here = some t) (folders : List FilePath)
    (entries : List (String × FileTree)) (count : Nat) (index : PropertyIndex U) :
    Leads files here skip ⟨folders, path, (name, t) :: entries, none, count⟩ index
      ⟨((foldersAmong path [(name, t)]).map Prod.fst).reverse ++ folders, path, entries, none,
        count + (addressed skip (stylesheetsAmong path [(name, t)])).length⟩
      (index.indexFound (addressed skip (stylesheetsAmong path [(name, t)]))) := by
  have hlook : Leads files here skip ⟨folders, path, (name, t) :: entries, none, count⟩ index
      (look skip ⟨folders, path, entries, none, count⟩ name t) index := .of_turn rfl
  cases t with
  | folder below =>
    cases hname : isSearched name <;>
      simpa [look, foldersAmong, stylesheetsAmong, hname, PropertyIndex.indexFound] using hlook
  | text contents =>
    cases hname : isStylesheetName name with
    | false =>
      simpa [look, foldersAmong, stylesheetsAmong, hname, PropertyIndex.indexFound] using hlook
    | true =>
      have hread := leads_file skip hentry folders path entries count index
      cases huri : Addressing.ofFile? (U := U) (path.child name) with
      | none =>
        refine hlook.trans ?_
        simpa [look, foldersAmong, stylesheetsAmong, addressed, hname, huri,
          PropertyIndex.indexFound] using hread
      | some uri =>
        cases hskip : skip uri with
        | true =>
          simpa [look, foldersAmong, stylesheetsAmong, addressed, hname, huri, hskip,
            PropertyIndex.indexFound] using hlook
        | false =>
          refine hlook.trans ?_
          simpa [look, foldersAmong, stylesheetsAmong, addressed, hname, huri, hskip,
            PropertyIndex.indexFound] using hread
  | binary =>
    have hfound : stylesheetsAmong path [(name, .binary)] = [] := rfl
    have hfolders : foldersAmong path [(name, .binary)] = [] := rfl
    simp only [hfound, hfolders, addressed_nil, List.map_nil, List.reverse_nil, List.nil_append,
      List.length_nil,
      Nat.add_zero, PropertyIndex.indexFound, List.foldl_nil]
    by_cases htaken : isStylesheetName name &&
        !(Addressing.ofFile? (path.child name)).any skip
    · -- The file is taken in hand, cannot be read, and is let go.
      refine hlook.trans (.of_turn ?_)
      simp [look, htaken, turn, textAt?, hentry]
    · simpa only [look, htaken, Bool.false_eq_true, if_false] using hlook
  | special => exact hlook

/-- All entries of a folder are looked at: its stylesheets are indexed, and the folders in it are on
the stack, the last one on top. -/
theorem leads_entries (hentries : ∀ e ∈ entries, files.at? (path.child e.1) here = some e.2)
    (folders : List FilePath) (count : Nat) (index : PropertyIndex U) :
    Leads files here skip ⟨folders, path, entries, none, count⟩ index
      ⟨((foldersAmong path entries).map Prod.fst).reverse ++ folders, path, [], none,
        count + (addressed skip (stylesheetsAmong path entries)).length⟩
      (index.indexFound (addressed skip (stylesheetsAmong path entries))) := by
  induction entries generalizing folders count index with
  | nil => exact .refl
  | cons e entries ih =>
    obtain ⟨hfirst, hrest⟩ := List.forall_mem_cons.mp hentries
    have hown : stylesheetsAmong path (e :: entries) =
        stylesheetsAmong path [e] ++ stylesheetsAmong path entries :=
      List.filterMap_append (l := [e])
    have hfolders : foldersAmong path (e :: entries) =
        foldersAmong path [e] ++ foldersAmong path entries := List.filterMap_append (l := [e])
    refine (leads_entry hfirst folders entries count index).trans ?_
    have hmore := ih hrest (((foldersAmong path [e]).map Prod.fst).reverse ++ folders)
      (count + (addressed skip (stylesheetsAmong path [e])).length)
      (index.indexFound (addressed skip (stylesheetsAmong path [e])))
    simpa [hown, hfolders, Nat.add_assoc] using hmore

/-- The search works a folder off that is on top of the stack: it indexes what is found below the
folder. -/
def WorksOff (files : FileTree) (here : List String) (skip : U → Bool) (path : FilePath)
    (entries : List (String × FileTree)) : Prop :=
  ∀ folders folder count (index : PropertyIndex U), ∃ last,
    Leads files here skip ⟨path :: folders, folder, [], none, count⟩ index
      ⟨folders, last, [], none,
        count + (addressed skip ((FileTree.folder entries).stylesheets path)).length⟩
      (index.indexFound (addressed skip ((FileTree.folder entries).stylesheets path)))

/-- Folders that are worked off one by one are worked off together. -/
theorem leads_folders {among : List (FilePath × List (String × FileTree))}
    (h : ∀ f ∈ among, WorksOff files here skip f.1 f.2) (folders : List FilePath)
    (folder : FilePath) (count : Nat) (index : PropertyIndex U) : ∃ last,
    Leads files here skip ⟨among.map Prod.fst ++ folders, folder, [], none, count⟩ index
      ⟨folders, last, [], none, count + (addressed skip (among.flatMap fun f =>
        (FileTree.folder f.2).stylesheets f.1)).length⟩
      (index.indexFound (addressed skip (among.flatMap fun f =>
        (FileTree.folder f.2).stylesheets f.1))) := by
  induction among generalizing folder count index with
  | nil => exact ⟨folder, .refl⟩
  | cons f among ih =>
    obtain ⟨hfirst, hrest⟩ := List.forall_mem_cons.mp h
    obtain ⟨last, hlast⟩ := hfirst (among.map Prod.fst ++ folders) folder count index
    obtain ⟨last', hlast'⟩ := ih hrest last
      (count + (addressed skip ((FileTree.folder f.2).stylesheets f.1)).length)
      (index.indexFound (addressed skip ((FileTree.folder f.2).stylesheets f.1)))
    exact ⟨last', hlast.trans (by simpa [Nat.add_assoc] using hlast')⟩

/-- Every folder is worked off whose entries are named as file systems name them. -/
theorem worksOff (hfolder : files.at? path here = some (.folder entries))
    (hnamed : (FileTree.folder entries).WellNamed) (skip : U → Bool) :
    WorksOff files here skip path entries := by
  induction entries using FileTree.folder_induction generalizing path with
  | step entries ih =>
    obtain ⟨hown, hbelow⟩ := FileTree.wellNamed_folder_iff.mp hnamed
    have hentries : ∀ e ∈ entries, files.at? (path.child e.1) here = some e.2 := fun e he =>
      FileTree.at?_child hfolder hown he
    have hfolders : ∀ f ∈ (foldersAmong path entries).reverse,
        WorksOff files here skip f.1 f.2 := by
      intro f hf
      obtain ⟨name, hpath, hmem, -⟩ := mem_foldersAmong.mp (List.mem_reverse.mp hf)
      exact ih name f.2 hmem (hpath ▸ hentries _ hmem) (hbelow _ hmem)
    intro folders folder count index
    have hlisted : Leads files here skip ⟨path :: folders, folder, [], none, count⟩ index
        ⟨folders, path, entries, none, count⟩ index := .of_turn (by simp [turn, hfolder])
    obtain ⟨last, hlast⟩ := leads_folders hfolders folders path
      (count + (addressed skip (stylesheetsAmong path entries)).length)
      (index.indexFound (addressed skip (stylesheetsAmong path entries)))
    refine ⟨last, (hlisted.trans (leads_entries hentries folders count index)).trans ?_⟩
    rw [FileTree.stylesheets_folder]
    simpa [Nat.add_assoc] using hlast

end Search

/-! ## What the search leaves in the index -/

namespace PropertyIndex

omit [Addressing U] in
/-- Stylesheets that are found leave what the index holds of other documents. -/
theorem get?_documents_indexFound {found : List (U × String)} (h : ∀ f ∈ found, f.1 ≠ uri)
    (index : PropertyIndex U) :
    (index.indexFound found).documents.get? uri = index.documents.get? uri := by
  induction found generalizing index with
  | nil => rfl
  | cons f found ih =>
    obtain ⟨hf, hfound⟩ := List.forall_mem_cons.mp h
    refine (ih hfound (index.indexText f.1 f.2)).trans ?_
    rw [indexText, get?_documents_insert, if_neg hf]

omit [Addressing U] in
/-- Of a stylesheet that is found once, the index holds what its text declares. -/
theorem get?_documents_indexFound_of_mem {found : List (U × String)} {f : U × String}
    (hnodup : (found.map Prod.fst).Nodup) (hf : f ∈ found) (index : PropertyIndex U) :
    (index.indexFound found).documents.get? f.1 = some (declaredIn f.2) := by
  induction found generalizing index with
  | nil => exact absurd hf List.not_mem_nil
  | cons first found ih =>
    obtain ⟨hfirst, hnodup⟩ := List.nodup_cons.mp hnodup
    rcases List.mem_cons.mp hf with rfl | hf
    · have hothers : ∀ g ∈ found, g.1 ≠ f.1 := fun g hg heq =>
        hfirst (heq ▸ List.mem_map_of_mem hg)
      refine (get?_documents_indexFound hothers (index.indexText f.1 f.2)).trans ?_
      rw [indexText, get?_documents_insert, if_pos rfl]
    · exact ih hnodup hf (index.indexText first.1 first.2)

/-- A text is one to index by an address below the folder at a path: names lead to a file with this
text, through folders that are neither hidden nor among three others; the name of the file has the
extension `css`, in any case; and its path has this address, which is not one to skip. -/
def IsToIndex (root : FilePath) (entries : List (String × FileTree)) (skip : U → Bool)
    (f : U × String) : Prop :=
  ∃ folders name, (FileTree.folder entries).Holds (folders ++ [name]) (.text f.2) ∧
    (∀ folder ∈ folders, (∀ rest, folder ≠ "." ++ rest) ∧
      folder ∉ ["node_modules", "target", "dist"]) ∧
    (∃ stem extension : String, name = stem ++ "." ++ extension ∧ stem ≠ "" ∧
      Text.lower extension = "css") ∧
    Addressing.ofFile? (root.below (folders ++ [name])) = some f.1 ∧ skip f.1 = false

omit [DecidableEq U] in
/-- A file is found with an address that is not one to skip exactly if it is one to index. -/
theorem mem_addressed_iff {f : U × String} :
    f ∈ addressed skip ((FileTree.folder entries).stylesheets root) ↔
      IsToIndex root entries skip f := by
  rw [addressed, List.mem_filterMap]
  constructor
  · rintro ⟨⟨path, contents⟩, hfound, haddressed⟩
    obtain ⟨uri, huri, rfl⟩ := Option.map_eq_some_iff.mp haddressed
    obtain ⟨huri, hskip⟩ := Option.filter_eq_some_iff.mp huri
    obtain ⟨folders, name, hpath, hholds, hfolders, hname⟩ :=
      FileTree.exists_holds_of_mem_stylesheets hfound
    exact ⟨folders, name, hholds, fun folder hmem => isSearched_iff.mp (hfolders folder hmem),
      isStylesheetName_iff.mp hname, hpath ▸ huri, by simpa using hskip⟩
  · rintro ⟨folders, name, hholds, hfolders, hname, huri, hskip⟩
    refine ⟨_, FileTree.mem_stylesheets_of_holds hholds
      (fun folder hmem => isSearched_iff.mpr (hfolders folder hmem))
      (isStylesheetName_iff.mpr hname) root, ?_⟩
    simp [huri, hskip]

variable [LawfulAddressing U]

omit [DecidableEq U] in
/-- Files below a proper path that are found by their addresses have different ones. -/
theorem nodup_addressed (hroot : root.IsProper) (hnamed : (FileTree.folder entries).WellNamed)
    (skip : U → Bool) :
    ((addressed skip ((FileTree.folder entries).stylesheets root)).map Prod.fst).Nodup := by
  have hproper {f : FilePath × String}
      (hf : f ∈ (FileTree.folder entries).stylesheets root) : f.1.IsProper := by
    obtain ⟨folders, name, hpath, hholds, -, -⟩ := FileTree.exists_holds_of_mem_stylesheets hf
    exact hpath ▸ hroot.below (hholds.isName_of_mem hnamed)
  refine List.pairwise_map.mpr (List.pairwise_filterMap.mpr
    ((FileTree.pairwise_stylesheets hnamed root).imp_of_mem ?_))
  intro f g hf hg hne x hx y hy heq
  obtain ⟨uri, huri, rfl⟩ := Option.map_eq_some_iff.mp hx
  obtain ⟨uri', huri', rfl⟩ := Option.map_eq_some_iff.mp hy
  obtain rfl : uri = uri' := heq
  exact hne (Addressing.names_inj (hproper hf) (hproper hg) (Option.filter_eq_some_iff.mp huri).1
    (Option.filter_eq_some_iff.mp huri').1)

/-- A search of a folder comes to an end. It indexes the files below the folder that are to be
indexed, each of them once, and gives their number; what the index holds of other documents stays.
Files have addresses exactly if the path of the folder is absolute, so that nothing is indexed below
a relative one. -/
theorem scanFolder_indexes_below {text : String}
    (hfolder : files.at? (.ofString text) here = some (.folder entries))
    (hnamed : (FileTree.folder entries).WellNamed) (index : PropertyIndex U) (skip : U → Bool) :
    ∃ (found : List (U × String)) (index' : PropertyIndex U),
      index.scanFolder files text skip here = .ok (found.length, index') ∧
      (∃ s, Search.Leads files here skip (.start (.ofString text)) index s index' ∧
        s.isOver = true ∧ s.indexed = found.length) ∧
      index' = found.foldl (fun index f => index.indexText f.1 f.2) index ∧
      (found.map Prod.fst).Nodup ∧
      (∀ f, f ∈ found ↔ IsToIndex (.ofString text) entries skip f) ∧
      (∀ names, (∃ uri : U, Addressing.ofFile? ((FilePath.ofString text).below names) = some uri) ↔
        (FilePath.ofString text).absolute = true) ∧
      (∀ f ∈ found, index'.documents.get? f.1 = some (declaredIn f.2)) ∧
      ∀ uri, (∀ f ∈ found, f.1 ≠ uri) →
        index'.documents.get? uri = index.documents.get? uri := by
  obtain ⟨last, hleads⟩ := Search.worksOff hfolder hnamed skip [] (.ofString text) 0 index
  rw [Nat.zero_add] at hleads
  have haddress (names : List String) :
      (∃ uri : U, Addressing.ofFile? ((FilePath.ofString text).below names) = some uri) ↔
        (FilePath.ofString text).absolute = true := by
    rw [← Option.isSome_iff_exists, LawfulAddressing.isSome_ofFile?, FilePath.absolute_below]
  have hnodup : ((addressed skip
      ((FileTree.folder entries).stylesheets (.ofString text))).map Prod.fst).Nodup := by
    by_cases habsolute : (FilePath.ofString text).absolute = true
    · exact nodup_addressed (FilePath.isProper_ofString_of_absolute habsolute) hnamed skip
    · have hnone : addressed skip ((FileTree.folder entries).stylesheets (.ofString text)) = [] := by
        refine List.eq_nil_iff_forall_not_mem.mpr fun f hf => habsolute ?_
        obtain ⟨folders, name, -, -, -, huri, -⟩ := mem_addressed_iff.mp hf
        exact (haddress _).mp ⟨_, huri⟩
      rw [hnone]
      exact List.nodup_nil
  refine ⟨_, _, ?_, ⟨_, hleads, rfl, rfl⟩, rfl, hnodup, fun f => mem_addressed_iff, haddress,
    fun f hf => get?_documents_indexFound_of_mem hnodup hf index,
    fun uri huri => get?_documents_indexFound huri index⟩
  simp only [scanFolder, hfolder]

/-- A folder with one stylesheet to index, which is in a folder in it, among files and folders that
a search passes over. -/
def styles : List (String × FileTree) :=
  [("sub", .folder [("E.Css", .text "x\x7b--b:1\x7d"), (".css", .text ""), ("g.css", .text "")]),
    ("b.CSS", .binary), ("node_modules", .folder [("c.css", .text "")]), ("s.css", .special),
    (".h", .folder [("d.css", .text "")])]

/-- The entries of that folder and of those in it are named as file systems name them. -/
theorem wellNamed_styles : (FileTree.folder styles).WellNamed := by
  simp only [styles, FileTree.wellNamed_folder_iff, List.forall_mem_cons, FileTree.wellNamed_text,
    FileTree.wellNamed_binary, FileTree.wellNamed_special, List.not_mem_nil, false_imp_iff,
    implies_true, and_true, true_and]
  decide

/-- The one stylesheet is indexed; another next to it is one to skip. -/
theorem scanFolder_indexes_below_of_styles :
    (FileTree.folder [("w", .folder styles)]).at? (.ofString "/w") = some (.folder styles) ∧
      (FileTree.folder styles).WellNamed ∧
      ∃ index', (empty (U := Url)).scanFolder (.folder [("w", .folder styles)]) "/w"
          (fun uri => uri = .ofFile ["w", "sub", "g.css"]) = .ok (1, index') ∧
        index'.documents.get? (.ofFile ["w", "sub", "E.Css"]) =
          some (declaredIn "x\x7b--b:1\x7d") := by
  have hpath : FilePath.ofString "/w" = ⟨["w"], false, true⟩ := by cbv
  have hfolder : (FileTree.folder [("w", .folder styles)]).at? (.ofString "/w") =
      some (.folder styles) := by rw [hpath]; rfl
  obtain ⟨found, index', hscan, -, -, -, hmem, -, hdocuments, -⟩ :=
    scanFolder_indexes_below hfolder wellNamed_styles (empty (U := Url))
      fun uri => uri = .ofFile ["w", "sub", "g.css"]
  have hone : found.length = 1 := by
    have hcount : (addressed (fun uri : Url => uri = .ofFile ["w", "sub", "g.css"])
        ((FileTree.folder styles).stylesheets ⟨["w"], false, true⟩)).length = 1 := by
      decide +kernel
    rw [scanFolder, hfolder] at hscan
    simp only [hpath, Except.ok.injEq, Prod.mk.injEq] at hscan
    exact hscan.1.symm.trans hcount
  have hfound : (Url.ofFile ["w", "sub", "E.Css"], "x\x7b--b:1\x7d") ∈ found := by
    rw [hmem, hpath]
    have hsearched : isSearched "sub" = true := by decide
    exact ⟨["sub"], "E.Css", .inside List.mem_cons_self (.inside List.mem_cons_self (.here _)),
      List.forall_mem_singleton.mpr (isSearched_iff.mp hsearched),
      ⟨"E", "Css", by decide, by decide, by decide⟩, rfl, by decide +kernel⟩
  exact ⟨hfolder, wellNamed_styles, index', hone ▸ hscan, hdocuments _ hfound⟩

end PropertyIndex

end CssWorkbench
