import Mathlib.Data.List.TakeWhile
import Mathlib.Tactic.MkIffOfInductiveProp
import CssWorkbench.Workspace.Search

/-!
# Files below a folder

Where a file has to be below a folder, and what it has to be called, for a search to find it: what
the recursion over the folder finds is exactly that, each file once. The path of a file that is
found leads to the file again, from wherever the path of the folder starts.
-/

namespace CssWorkbench

variable {path : FilePath} {names folders here : List String} {name contents : String}
  {files t u : FileTree} {entries : List (String × FileTree)}

namespace FilePath

/-- The path that leads on by names. -/
def below (path : FilePath) (names : List String) : FilePath := names.foldl child path

/-- Without names a path leads no further. -/
@[simp] theorem below_nil (path : FilePath) : path.below [] = path := rfl

/-- The first name leads on to an entry, and the others from there. -/
@[simp] theorem below_cons (path : FilePath) (name : String) (names : List String) :
    path.below (name :: names) = (path.child name).below names := rfl

/-- The path that leads on by names goes by these behind its own. -/
@[simp] theorem names_below (path : FilePath) (names : List String) :
    (path.below names).names = path.names ++ names := by
  induction names generalizing path with
  | nil => simp
  | cons name names ih => simp [ih]

/-- The path that leads on from an absolute one is absolute, and from a relative one relative. -/
@[simp] theorem absolute_below (path : FilePath) (names : List String) :
    (path.below names).absolute = path.absolute := by
  induction names generalizing path with
  | nil => rfl
  | cons name names ih => simp [ih]

/-- A proper path that leads on by names is proper. -/
theorem IsProper.below (h : path.IsProper) (hnames : ∀ name ∈ names, IsName name) :
    (path.below names).IsProper := by
  rw [IsProper, names_below]
  exact List.forall_mem_append.mpr ⟨h, hnames⟩

end FilePath

namespace FileTree

/-- Names lead from a tree to one below it. -/
inductive Holds : FileTree → List String → FileTree → Prop
  | here (t : FileTree) : Holds t [] t
  | inside {entries : List (String × FileTree)} {name : String} {t u : FileTree}
      {names : List String} (hmem : (name, t) ∈ entries) (h : Holds t names u) :
      Holds (.folder entries) (name :: names) u

/-- The entries of a folder as file systems have them: no two go by the same name, and the names are
such that may stand on a path and do not lead back. -/
@[mk_iff]
structure EntriesNamed (entries : List (String × FileTree)) : Prop where
  once : (entries.map Prod.fst).Nodup
  names : ∀ e ∈ entries, FilePath.IsName e.1 ∧ e.1 ≠ ".."

instance (entries : List (String × FileTree)) : Decidable (EntriesNamed entries) :=
  decidable_of_iff _ (entriesNamed_iff entries).symm

/-- The entries of every folder in a tree are named as file systems name them. -/
def WellNamed (t : FileTree) : Prop :=
  ∀ names entries, t.Holds names (.folder entries) → EntriesNamed entries

/-- Only from a folder do names lead on. -/
theorem Holds.exists_folder (h : t.Holds names u) (hne : names ≠ []) :
    ∃ entries, t = .folder entries := by
  cases h with
  | here => exact absurd rfl hne
  | inside => exact ⟨_, rfl⟩

/-- A folder is well named when its own entries and the trees at them are. -/
theorem wellNamed_folder_iff :
    (folder entries).WellNamed ↔ EntriesNamed entries ∧ ∀ e ∈ entries, e.2.WellNamed := by
  constructor
  · intro h
    exact ⟨h [] _ (.here _), fun e he names _ hbelow => h (e.1 :: names) _ (.inside he hbelow)⟩
  · rintro ⟨hnamed, hentries⟩ names below hholds
    cases hholds with
    | here => exact hnamed
    | inside hmem h => exact hentries _ hmem _ _ h

/-- A text has no entries to name. -/
@[simp] theorem wellNamed_text (contents : String) : (text contents).WellNamed :=
  fun _ _ h => nomatch h

/-- A file that is no text has no entries to name. -/
@[simp] theorem wellNamed_binary : binary.WellNamed := fun _ _ h => nomatch h

/-- What is neither a file nor a folder has no entries to name. -/
@[simp] theorem wellNamed_special : special.WellNamed := fun _ _ h => nomatch h

/-- The names on the way to what is below a well-named folder may stand on a path. -/
theorem Holds.isName_of_mem (h : t.Holds names u) (hnamed : t.WellNamed) :
    ∀ name ∈ names, FilePath.IsName name := by
  induction h with
  | here => nofun
  | inside hmem _ ih =>
    obtain ⟨hentries, hbelow⟩ := wellNamed_folder_iff.mp hnamed
    exact List.forall_mem_cons.mpr ⟨(hentries.names _ hmem).1, ih (hbelow _ hmem)⟩

/-! ## Paths to files -/

/-- The way behind some names goes on from the tree that these lead to. -/
theorem exists_walk?_append {above : List FileTree} (h : walk? above t names = some u) :
    ∃ above', ∀ more, walk? above t (names ++ more) = walk? above' u more := by
  induction names generalizing above t with
  | nil =>
    cases h
    exact ⟨above, fun _ => rfl⟩
  | cons name names ih =>
    by_cases hup : name = ".."
    · subst hup
      rw [walk?] at h
      split at h
      · cases h
      · next hleaf =>
        obtain ⟨above', hmore⟩ := ih h
        exact ⟨above', fun more => (if_neg hleaf).trans (hmore more)⟩
    · rw [walk?.eq_3 _ _ _ _ hup] at h
      obtain ⟨below, hlookup, hbelow⟩ := Option.bind_eq_some_iff.mp h
      obtain ⟨above', hmore⟩ := ih hbelow
      refine ⟨above', fun more => ?_⟩
      rw [List.cons_append, walk?.eq_3 _ _ _ _ hup, hlookup, Option.bind_some, hmore]

/-- An entry that goes by its name alone is found by it. -/
theorem EntriesNamed.lookup (h : EntriesNamed entries) (hmem : (name, t) ∈ entries) :
    entries.lookup name = some t := by
  obtain ⟨front, behind, rfl⟩ := List.append_of_mem hmem
  have hfront : name ∉ front.map Prod.fst := by
    have honce := h.once
    rw [List.map_append, List.map_cons] at honce
    exact fun hin => (List.nodup_append.mp honce).2.2 _ hin _ List.mem_cons_self rfl
  refine List.lookup_eq_some_iff.mpr ⟨front, behind, rfl, fun e he => bne_iff_ne.mpr ?_⟩
  rintro rfl
  exact hfront (List.mem_map_of_mem he)

/-- Names lead from a well-named tree, in well-named folders, to a well-named one. -/
theorem WellNamed.walk? {above : List FileTree} (hnamed : t.WellNamed)
    (habove : ∀ u ∈ above, u.WellNamed) (h : FileTree.walk? above t names = some u) :
    u.WellNamed := by
  induction names generalizing above t with
  | nil =>
    cases h
    exact hnamed
  | cons name names ih =>
    by_cases hup : name = ".."
    · subst hup
      rw [FileTree.walk?] at h
      split at h
      · cases h
      · refine ih ?_ (fun u hu => habove u (List.mem_of_mem_drop hu)) h
        cases above with
        | nil => exact hnamed
        | cons folder above => exact habove folder List.mem_cons_self
    · rw [walk?.eq_3 _ _ _ _ hup] at h
      obtain ⟨below, hlookup, hbelow⟩ := Option.bind_eq_some_iff.mp h
      refine ih ?_ (List.forall_mem_cons.mpr ⟨hnamed, habove⟩) hbelow
      cases t with
      | text | binary | special => cases hlookup
      | folder entries =>
        obtain ⟨front, behind, rfl : entries = _, -⟩ := List.lookup_eq_some_iff.mp hlookup
        exact (wellNamed_folder_iff.mp hnamed).2 (name, below)
          (List.mem_append_right front List.mem_cons_self)

/-- Whatever a path leads to in a well-named tree is well named. -/
theorem WellNamed.at? (hnamed : files.WellNamed) (h : files.at? path here = some t) :
    t.WellNamed :=
  hnamed.walk? (fun _ hu => absurd hu List.not_mem_nil) (Option.filter_eq_some_iff.mp h).1

/-- The path of an entry of a folder leads to the entry. -/
theorem at?_child (hfolder : files.at? path here = some (.folder entries))
    (hnamed : EntriesNamed entries) (hmem : (name, t) ∈ entries) :
    files.at? (path.child name) here = some t := by
  obtain ⟨hwalk, -⟩ := Option.filter_eq_some_iff.mp hfolder
  obtain ⟨above, hmore⟩ := exists_walk?_append hwalk
  have hway : (if (path.child name).absolute then (path.child name).names
      else here ++ (path.child name).names) =
        (if path.absolute then path.names else here ++ path.names) ++ [name] := by
    cases h : path.absolute <;> simp [FilePath.child, h]
  have hentry : walk? above (.folder entries) [name] = some t := by
    rw [walk?.eq_3 _ _ _ _ (hnamed.names _ hmem).2]
    simp [FileTree.entries, hnamed.lookup hmem, walk?]
  rw [at?, hway, hmore, hentry]
  rfl

end FileTree

/-! ## Names of stylesheets -/

/-- What is behind the last point of a name is its extension, unless the point opens the name. -/
theorem extension?_append {stem extension : String} (h : '.' ∉ extension.toList) :
    extension? (stem ++ "." ++ extension) = if stem = "" then none else some extension := by
  have hbackwards : (stem ++ "." ++ extension).toList.reverse =
      extension.toList.reverse ++ '.' :: stem.toList.reverse := by simp
  have htake : (extension.toList.reverse ++ '.' :: stem.toList.reverse).takeWhile (· ≠ '.') =
      extension.toList.reverse := by
    have hpass : ∀ c ∈ extension.toList.reverse, decide (c ≠ '.') = true := fun c hc =>
      decide_eq_true fun heq => h (heq ▸ List.mem_reverse.mp hc)
    rw [List.takeWhile_append_of_pos hpass, List.takeWhile_cons_of_neg (by simp), List.append_nil]
  simp only [extension?, hbackwards, htake, List.drop_left]
  simp

/-- A name without a point has no extension. -/
theorem extension?_eq_none (h : '.' ∉ name.toList) : extension? name = none := by
  have htake : name.toList.reverse.takeWhile (· ≠ '.') = name.toList.reverse :=
    List.takeWhile_eq_self_iff.mpr fun c hc => decide_eq_true fun heq =>
      h (heq ▸ List.mem_reverse.mp hc)
  simp only [extension?, htake, List.drop_length]

/-- A stylesheet has something in front of a point in its name and `css`, in any case, behind it. -/
theorem isStylesheetName_iff :
    isStylesheetName name = true ↔
      ∃ stem extension : String, name = stem ++ "." ++ extension ∧ stem ≠ "" ∧
        Text.lower extension = "css" := by
  constructor
  · intro h
    by_cases hpoint : '.' ∈ name.toList.reverse
    · obtain ⟨extension, stem, hname, hextension⟩ := List.eq_append_cons_of_mem hpoint
      have hsplit : name = String.ofList stem.reverse ++ "." ++ String.ofList extension.reverse := by
        apply String.toList_injective
        rw [← List.reverse_reverse name.toList, hname]
        simp
      have hfree : '.' ∉ (String.ofList extension.reverse).toList := by simpa using hextension
      rw [hsplit, isStylesheetName, extension?_append hfree] at h
      split at h
      · cases h
      · next hstem => exact ⟨_, _, hsplit, hstem, of_decide_eq_true h⟩
    · rw [isStylesheetName, extension?_eq_none (mt List.mem_reverse.mpr hpoint)] at h
      cases h
  · rintro ⟨stem, extension, rfl, hstem, hlower⟩
    have hpoint : '.' ∉ extension.toList := by
      intro hmem
      have hlow : '.' ∈ (Text.lower extension).toList := by
        rw [Text.lower, String.toList_ofList]
        exact List.mem_map.mpr ⟨_, hmem, rfl⟩
      rw [hlower] at hlow
      exact absurd hlow (by decide)
    simp [isStylesheetName, extension?_append hpoint, hstem, hlower]

/-- A folder is searched unless its name starts with a point or is one of three. -/
theorem isSearched_iff :
    isSearched name = true ↔
      (∀ rest, name ≠ "." ++ rest) ∧ name ∉ ["node_modules", "target", "dist"] := by
  have hpoint : name.toList.head? = some '.' ↔ ∃ rest, name = "." ++ rest := by
    rw [List.head?_eq_some_iff]
    constructor
    · rintro ⟨rest, hrest⟩
      exact ⟨String.ofList rest, String.toList_injective (by simp [hrest])⟩
    · rintro ⟨rest, rfl⟩
      exact ⟨rest.toList, by simp⟩
  simp [isSearched, skippedFolders, hpoint]

/-! ## What is found below a folder -/

/-- The folders that are searched among the entries of a folder at a path, with their entries. -/
def foldersAmong (path : FilePath) (entries : List (String × FileTree)) :
    List (FilePath × List (String × FileTree)) :=
  entries.filterMap fun entry =>
    match entry.2 with
    | .folder below => if isSearched entry.1 then some (path.child entry.1, below) else none
    | _ => none

/-- The stylesheets among some entries are the texts that are called like stylesheets. -/
theorem mem_stylesheetsAmong {f : FilePath × String} :
    f ∈ stylesheetsAmong path entries ↔
      ∃ name, f.1 = path.child name ∧ (name, .text f.2) ∈ entries ∧
        isStylesheetName name = true := by
  rw [stylesheetsAmong, List.mem_filterMap]
  constructor
  · rintro ⟨⟨name, t⟩, hmem, hfound⟩
    cases t with
    | text contents =>
      obtain ⟨hname, hfound⟩ := Option.ite_none_right_eq_some.mp hfound
      cases hfound
      exact ⟨name, rfl, hmem, hname⟩
    | _ => cases hfound
  · rintro ⟨name, hpath, hmem, hname⟩
    exact ⟨_, hmem, by simp [hname, ← hpath]⟩

/-- The folders that are searched among some entries are the folders that are not called like those
passed over. -/
theorem mem_foldersAmong {f : FilePath × List (String × FileTree)} :
    f ∈ foldersAmong path entries ↔
      ∃ name, f.1 = path.child name ∧ (name, .folder f.2) ∈ entries ∧ isSearched name = true := by
  rw [foldersAmong, List.mem_filterMap]
  constructor
  · rintro ⟨⟨name, t⟩, hmem, hfound⟩
    cases t with
    | folder below =>
      obtain ⟨hname, hfound⟩ := Option.ite_none_right_eq_some.mp hfound
      cases hfound
      exact ⟨name, rfl, hmem, hname⟩
    | _ => cases hfound
  · rintro ⟨name, hpath, hmem, hname⟩
    exact ⟨_, hmem, by simp [hname, ← hpath]⟩

/-- Entries of different names give what is at paths of different names. -/
theorem pairwise_filterMap_of_names {α : Type}
    {found : String × FileTree → Option (FilePath × α)} (path : FilePath)
    (hfound : ∀ e f, found e = some f → f.1 = path.child e.1)
    (h : entries.Pairwise fun e e' => e.1 ≠ e'.1) :
    (entries.filterMap found).Pairwise fun f g => f.1.names ≠ g.1.names := by
  refine List.pairwise_filterMap.mpr (h.imp fun {e e'} hne f hf g hg heq => hne ?_)
  rw [hfound e f hf, hfound e' g hg] at heq
  exact (List.cons.inj (List.append_cancel_left heq)).1

/-- No stylesheet is twice among entries of different names. -/
theorem pairwise_stylesheetsAmong (h : entries.Pairwise fun e e' => e.1 ≠ e'.1)
    (path : FilePath) :
    (stylesheetsAmong path entries).Pairwise fun f g => f.1.names ≠ g.1.names := by
  refine pairwise_filterMap_of_names path ?_ h
  rintro ⟨name, t⟩ f hf
  cases t with
  | text contents => exact Option.some.inj (Option.ite_none_right_eq_some.mp hf).2 ▸ rfl
  | _ => cases hf

/-- No folder is twice among entries of different names. -/
theorem pairwise_foldersAmong (h : entries.Pairwise fun e e' => e.1 ≠ e'.1) (path : FilePath) :
    (foldersAmong path entries).Pairwise fun f g => f.1.names ≠ g.1.names := by
  refine pairwise_filterMap_of_names path ?_ h
  rintro ⟨name, t⟩ f hf
  cases t with
  | folder below => exact Option.some.inj (Option.ite_none_right_eq_some.mp hf).2 ▸ rfl
  | _ => cases hf

/-- What is found below the entries of a folder is found below the folders among them, the last one
first. -/
theorem stylesheetsBelow_eq (path : FilePath) (entries : List (String × FileTree)) :
    stylesheetsBelow path entries =
      (foldersAmong path entries).reverse.flatMap fun f =>
        (FileTree.folder f.2).stylesheets f.1 := by
  induction entries with
  | nil => rfl
  | cons e entries ih =>
    obtain ⟨name, t⟩ := e
    rw [stylesheetsBelow, ih]
    cases t with
    | folder below => cases hname : isSearched name <;> simp [foldersAmong, hname]
    | _ => simp [foldersAmong, FileTree.stylesheets]

namespace FileTree

/-- What holds of a folder once it holds of the folders in it holds of every folder. -/
theorem folder_induction {motive : List (String × FileTree) → Prop}
    (step : ∀ entries, (∀ name below, (name, folder below) ∈ entries → motive below) →
      motive entries) (entries : List (String × FileTree)) : motive entries :=
  step entries fun _ below hmem =>
    have : sizeOf below < sizeOf entries := by
      have hlt := List.sizeOf_lt_of_mem hmem
      simp only [Prod.mk.sizeOf_spec, folder.sizeOf_spec] at hlt
      omega
    folder_induction step below
termination_by sizeOf entries

/-- Below a folder there are its own stylesheets and those below the folders in it. -/
theorem stylesheets_folder (path : FilePath) (entries : List (String × FileTree)) :
    (folder entries).stylesheets path = stylesheetsAmong path entries ++
      (foldersAmong path entries).reverse.flatMap fun f => (folder f.2).stylesheets f.1 := by
  rw [stylesheets, stylesheetsBelow_eq]

/-- A stylesheet below a folder is one of its own or one below a folder in it. -/
theorem mem_stylesheets_folder {f : FilePath × String} :
    f ∈ (folder entries).stylesheets path ↔ f ∈ stylesheetsAmong path entries ∨
      ∃ g ∈ foldersAmong path entries, f ∈ (folder g.2).stylesheets g.1 := by
  rw [stylesheets_folder]
  simp only [List.mem_append, List.mem_flatMap, List.mem_reverse]

/-- A stylesheet is found below a folder when the folders on the way to it are searched. -/
theorem mem_stylesheets_of_holds (h : (folder entries).Holds (folders ++ [name]) (.text contents))
    (hfolders : ∀ f ∈ folders, isSearched f = true) (hname : isStylesheetName name = true)
    (path : FilePath) :
    (path.below (folders ++ [name]), contents) ∈ (folder entries).stylesheets path := by
  induction folders generalizing entries path with
  | nil =>
    cases h with
    | inside hmem h =>
      cases h
      exact mem_stylesheets_folder.mpr (.inl (mem_stylesheetsAmong.mpr ⟨name, rfl, hmem, hname⟩))
  | cons first folders ih =>
    obtain ⟨hfirst, hfolders⟩ := List.forall_mem_cons.mp hfolders
    cases h with
    | @inside _ _ t _ _ hmem h =>
      obtain ⟨below, rfl⟩ := h.exists_folder (by simp)
      have hbelow : (path.child first, below) ∈ foldersAmong path _ :=
        mem_foldersAmong.mpr ⟨first, rfl, hmem, hfirst⟩
      exact mem_stylesheets_folder.mpr (.inr ⟨_, hbelow, ih h hfolders (path.child first)⟩)

/-- Nothing else is found. -/
theorem exists_holds_of_mem_stylesheets {f : FilePath × String}
    (hf : f ∈ (folder entries).stylesheets path) :
    ∃ folders name, f.1 = path.below (folders ++ [name]) ∧
      (folder entries).Holds (folders ++ [name]) (.text f.2) ∧
      (∀ folder ∈ folders, isSearched folder = true) ∧ isStylesheetName name = true := by
  induction entries using folder_induction generalizing path with
  | step entries ih =>
    rcases mem_stylesheets_folder.mp hf with hamong | ⟨g, hg, hbelow⟩
    · obtain ⟨name, hpath, hmem, hname⟩ := mem_stylesheetsAmong.mp hamong
      exact ⟨[], name, hpath, .inside hmem (.here _), nofun, hname⟩
    · obtain ⟨first, hpath, hmem, hfirst⟩ := mem_foldersAmong.mp hg
      obtain ⟨folders, name, hf, hholds, hfolders, hname⟩ := ih first g.2 hmem hbelow
      exact ⟨first :: folders, name, hf.trans (hpath ▸ rfl), .inside hmem hholds,
        List.forall_mem_cons.mpr ⟨hfirst, hfolders⟩, hname⟩

/-- The path of what is found below a folder is longer than that of the folder by one name or
more, and starts with its names. -/
theorem exists_names_of_mem_stylesheets {f : FilePath × String}
    (hf : f ∈ (folder entries).stylesheets path) :
    ∃ first rest, f.1.names = path.names ++ first :: rest := by
  obtain ⟨folders, name, hpath, -, -, -⟩ := exists_holds_of_mem_stylesheets hf
  cases folders with
  | nil => exact ⟨name, [], by simp [hpath]⟩
  | cons first folders => exact ⟨first, folders ++ [name], by simp [hpath]⟩

/-- Nothing is found twice. -/
theorem pairwise_stylesheets (hnamed : (folder entries).WellNamed) (path : FilePath) :
    ((folder entries).stylesheets path).Pairwise fun f g => f.1.names ≠ g.1.names := by
  induction entries using folder_induction generalizing path with
  | step entries ih =>
    obtain ⟨hown, hentries⟩ := wellNamed_folder_iff.mp hnamed
    have hnames : entries.Pairwise fun e e' => e.1 ≠ e'.1 := List.pairwise_map.mp hown.once
    rw [stylesheets_folder]
    refine List.pairwise_append.mpr ⟨pairwise_stylesheetsAmong hnames path,
      List.pairwise_flatMap.mpr ⟨fun g hg => ?_, ?_⟩, fun f hf f' hf' => ?_⟩
    · obtain ⟨first, -, hmem, -⟩ := mem_foldersAmong.mp (List.mem_reverse.mp hg)
      exact ih first g.2 hmem (hentries _ hmem) g.1
    · -- The paths of two folders are equally long, so that no path goes on behind both.
      refine List.pairwise_reverse.mpr ((pairwise_foldersAmong hnames path).imp_of_mem ?_)
      intro g g' hg hg' hne f' hf' f hf heq
      obtain ⟨first, hpath, -, -⟩ := mem_foldersAmong.mp hg
      obtain ⟨first', hpath', -, -⟩ := mem_foldersAmong.mp hg'
      obtain ⟨_, _, hbehind⟩ := exists_names_of_mem_stylesheets hf
      obtain ⟨_, _, hbehind'⟩ := exists_names_of_mem_stylesheets hf'
      rw [hbehind, hbehind'] at heq
      refine hne (List.append_inj_left heq ?_).symm
      simp [hpath, hpath']
    · obtain ⟨name, hname, -, -⟩ := mem_stylesheetsAmong.mp hf
      obtain ⟨g, hg, hbelow⟩ := List.mem_flatMap.mp hf'
      obtain ⟨first, hpath, -, -⟩ := mem_foldersAmong.mp (List.mem_reverse.mp hg)
      obtain ⟨_, _, hbehind⟩ := exists_names_of_mem_stylesheets hbelow
      intro heq
      have hlength := congrArg List.length heq
      simp [hname, hbehind, hpath] at hlength

end FileTree

end CssWorkbench
