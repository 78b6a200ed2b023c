import PhpTypes.Files.Walk
import PhpTypes.Proofs.Files.Path
import Mathlib.Data.List.Nodup
import Mathlib.Data.Option.Basic

/-!
# What a walk lists

The path of an entry is made by writing its name behind the path of its directory, and it denotes
that entry (`FileSystem.find?_child`). A walk therefore lists every file with a path that denotes
it, and a path stands for the same bytes wherever a walk comes upon it
(`Walk.find?_of_mem_filesAt`). This needs trees such as file systems have them, in which the entries
of a directory have different names (`Node.Proper`).
-/

namespace PhpTypes.Files

namespace Node

/-- The trees of file systems: the entries of every directory have different names, and these can
be parts of paths. -/
inductive Proper : Node → Prop where
  | file (bytes : ByteArray) : Proper (.file bytes)
  | directory {entries : List (String × Node)} (different : (entries.map (·.1)).Nodup)
      (names : ∀ e ∈ entries, IsName e.1) (nodes : ∀ e ∈ entries, Proper e.2) :
      Proper (.directory entries)

variable {node below : Node} {name : String} {entries : List (String × Node)}

/-- A directory without entries is proper. -/
theorem Proper.empty : Proper .empty :=
  .directory .nil (fun _ h => nomatch h) fun _ h => nomatch h

/-- A name that is found is the name of an entry. -/
theorem mem_of_lookup (h : entries.lookup name = some node) : (name, node) ∈ entries := by
  obtain ⟨before, after, rfl, -⟩ := List.lookup_eq_some_iff.mp h
  exact List.mem_append_right _ List.mem_cons_self

/-- Where names are different, an entry is found under its name. -/
theorem lookup_of_mem (hdifferent : (entries.map (·.1)).Nodup) (h : (name, node) ∈ entries) :
    entries.lookup name = some node := by
  obtain ⟨before, after, rfl⟩ := List.append_of_mem h
  rw [List.map_append, List.map_cons, List.nodup_middle, List.nodup_cons] at hdifferent
  refine List.lookup_eq_some_iff.mpr ⟨before, after, rfl, fun e he => ?_⟩
  have hne : name ≠ e.1 := by
    rintro rfl
    exact hdifferent.1 (List.mem_append_left _ (List.mem_map.mpr ⟨e, he, rfl⟩))
  exact bne_iff_ne.mpr hne

/-- The entries of a proper directory are proper. -/
theorem Proper.of_entry (hproper : node.Proper) (h : node.entry? name = some below) :
    below.Proper := by
  cases hproper with
  | file bytes => exact nomatch h
  | directory different names nodes => exact nodes _ (mem_of_lookup h)

/-- Every node below a proper one is proper. -/
theorem Proper.descend? {names : List String} (hproper : node.Proper)
    (h : node.descend? names = some below) : below.Proper := by
  induction names generalizing node with
  | nil => exact Option.some.inj h ▸ hproper
  | cons name rest ih =>
    obtain ⟨entry, hentry, hrest⟩ := Option.bind_eq_some_iff.mp h
    exact ih (hproper.of_entry hentry) hrest

/-- The entries of a directory after one of them has been replaced or added. -/
theorem Proper.replaceEntry (hproper : (Node.directory entries).Proper) (hname : IsName name)
    (hbelow : below.Proper) :
    (Node.directory (entries.filter (·.1 != name) ++ [(name, below)])).Proper := by
  cases hproper with
  | directory different names nodes =>
    have hothers : ((entries.filter (·.1 != name)).map (·.1)).Nodup :=
      different.sublist (List.filter_sublist.map _)
    have hnew : name ∉ (entries.filter (·.1 != name)).map (·.1) := by
      intro h
      obtain ⟨e, he, rfl⟩ := List.mem_map.mp h
      exact bne_iff_ne.mp (List.mem_filter.mp he).2 rfl
    have hcases : ∀ e ∈ entries.filter (·.1 != name) ++ [(name, below)],
        e ∈ entries ∨ e = (name, below) := fun e he =>
      (List.mem_append.mp he).imp (fun h => (List.mem_filter.mp h).1) List.mem_singleton.mp
    refine .directory ?_ (fun e he => ?_) fun e he => ?_
    · rw [List.map_append, List.map_singleton, ← List.concat_eq_append]
      exact hothers.concat hnew
    · rcases hcases e he with h | rfl
      · exact names e h
      · exact hname
    · rcases hcases e he with h | rfl
      · exact nodes e h
      · exact hbelow

/-- Putting a file into the tree of a file system gives one again. -/
theorem Proper.insert (bytes : ByteArray) {names : List String}
    (hnames : ∀ name ∈ names, IsName name) (hproper : node.Proper) :
    (node.insert bytes names).Proper := by
  induction names generalizing node with
  | nil => exact .file bytes
  | cons name rest ih =>
    have hentries (entries : List (String × Node)) (hproper : (Node.directory entries).Proper) :
        (Node.insert bytes (name :: rest) (.directory entries)).Proper := by
      refine hproper.replaceEntry (hnames name List.mem_cons_self) ?_
      refine ih (fun name h => hnames name (List.mem_cons_of_mem _ h)) ?_
      cases hlookup : entries.lookup name with
      | none => exact .empty
      | some below => exact hproper.of_entry hlookup
    -- A file on the way gives way to a directory without entries.
    cases hproper with
    | file old => exact hentries [] .empty
    | directory different names nodes => exact hentries _ (.directory different names nodes)

/-- Names lead down one after the other. -/
theorem descend?_append (node : Node) (names rest : List String) :
    node.descend? (names ++ rest) = (node.descend? names).bind (·.descend? rest) := by
  induction names generalizing node with
  | nil => rfl
  | cons name names ih =>
    rw [List.cons_append, Node.descend?, Node.descend?]
    cases node.entry? name with
    | none => rfl
    | some entry => exact ih entry

end Node

/-! ## Paths of entries -/

namespace FileSystem

variable {top : Node} {fs : FileSystem}

/-- What a part of a path leads to in a directory. -/
theorem follow_of_directory {above : List String} {entries : List (String × Node)}
    (hat : top.descend? above.reverse = some (.directory entries)) (part : String)
    (rest : List String) :
    follow top above (part :: rest) =
      if part == "" || part == "." then follow top above rest
      else if part == ".." then follow top (above.drop 1) rest
      else (entries.lookup part).bind fun _ => follow top (part :: above) rest := by
  rw [follow, hat]
  rfl

/-- A path is followed part by part. -/
theorem follow_cons (top : Node) (above : List String) (part : String) (rest : List String) :
    follow top above (part :: rest) = (follow top above [part]).bind (follow top · rest) := by
  cases hat : top.descend? above.reverse with
  | none =>
    rw [follow, follow, hat]
    rfl
  | some here =>
    cases here with
    | file bytes =>
      rw [follow, follow, hat]
      rfl
    | directory entries =>
      rw [follow_of_directory hat, follow_of_directory hat]
      split
      · rfl
      · split
        · rfl
        · cases entries.lookup part <;> rfl

/-- A path may be followed in two goes. -/
theorem follow_append (top : Node) (above parts rest : List String) :
    follow top above (parts ++ rest) = (follow top above parts).bind (follow top · rest) := by
  induction parts generalizing above with
  | nil => rfl
  | cons part parts ih =>
    rw [List.cons_append, follow_cons, follow_cons top above part parts, Option.bind_assoc]
    simp only [ih]

/-- A name leads to the entry of the directory that has this name. -/
theorem follow_name {above : List String} {directory node : Node} {name : String}
    (hname : IsName name) (hat : top.descend? above.reverse = some directory)
    (hentry : directory.entry? name = some node) :
    follow top above [name] = some (name :: above) := by
  obtain ⟨hempty, hcurrent, hparent, -⟩ := hname
  cases directory with
  | file bytes => exact nomatch hentry
  | directory entries =>
    have hlookup : entries.lookup name = some node := hentry
    rw [follow_of_directory hat, if_neg (by simp [hempty, hcurrent]), if_neg (by simp [hparent]),
      hlookup]
    rfl

/-- A slash at the end of a path leads nowhere else. -/
theorem eq_of_follow_empty {above names : List String} (h : follow top above [""] = some names) :
    names = above := by
  rw [follow] at h
  obtain ⟨here, -, hrest⟩ := Option.bind_eq_some_iff.mp h
  obtain ⟨-, -, hsame⟩ := Option.bind_eq_some_iff.mp hrest
  exact (Option.some.inj hsame).symm

/-- The names that lead to where a path starts, last first. -/
def startOf (fs : FileSystem) (path : String) : List String :=
  if isAbsolute path then [] else fs.work.reverse

/-- A path denotes what the names that it stands for lead to from the top. -/
theorem find?_eq_some_iff {path : String} {node : Node} :
    fs.find? path = some node ↔ path ≠ "" ∧ ∃ names,
      follow fs.top (fs.startOf path) (partsOf path) = some names ∧
        fs.top.descend? names.reverse = some node := by
  by_cases hempty : path = ""
  · subst hempty
    exact ⟨nofun, fun h => absurd rfl h.1⟩
  · have hguard : (guard (!path.isEmpty) : Option Unit) = some () :=
      if_pos (by simpa using hempty)
    rw [find?, locate?, hguard]
    simp only [bind, Option.bind_some, Option.bind_assoc, pure]
    exact Option.bind_eq_some_iff.trans (and_iff_right hempty).symm

/-- **An entry of a directory has the path of the directory with its name behind.** -/
theorem find?_child {path name : String} {directory node : Node} (hname : IsName name)
    (hat : fs.find? path = some directory) (hentry : directory.entry? name = some node) :
    fs.find? (child path name) = some node := by
  obtain ⟨hpath, names, hfollow, hdescend⟩ := find?_eq_some_iff.mp hat
  have hstep : follow fs.top names [name] = some (name :: names) :=
    follow_name hname hdescend hentry
  have hfollow' : follow fs.top (fs.startOf path) (partsOf (child path name)) =
      some (name :: names) := by
    obtain hparts | ⟨lead, hlead, hparts⟩ := partsOf_child hname path
    · rw [hparts, follow_append, hfollow, Option.bind_some, hstep]
    -- Here the path of the directory ends in a slash, and the name takes the place behind it.
    · rw [hlead, follow_append] at hfollow
      obtain ⟨names', hfollow', hlast⟩ := Option.bind_eq_some_iff.mp hfollow
      obtain rfl : names = names' := eq_of_follow_empty hlast
      rw [hparts, follow_append, hfollow', Option.bind_some, hstep]
  refine find?_eq_some_iff.mpr ⟨?_, name :: names, ?_, ?_⟩
  · exact child_ne_empty hpath name
  · rw [startOf, isAbsolute_child hpath]
    exact hfollow'
  · rw [List.reverse_cons, Node.descend?_append, hdescend, Option.bind_some, Node.descend?, hentry]
    rfl

/-- What a path denotes in a proper tree is proper. -/
theorem proper_of_find? (hproper : fs.top.Proper) {path : String} {node : Node}
    (h : fs.find? path = some node) : node.Proper := by
  obtain ⟨-, names, -, hdescend⟩ := find?_eq_some_iff.mp h
  exact hproper.descend? hdescend

end FileSystem

/-! ## Listed files -/

namespace Walk

variable {walk : Walk} {inner : List RuleLayer} {path : String} {file : String × ByteArray}

/-- What a walk lists in a directory, it lists at one of the entries. -/
theorem exists_entry_of_mem_filesIn {entries : List (String × Node)}
    (h : file ∈ walk.filesIn inner path entries) :
    ∃ e ∈ entries, file ∈ walk.filesAt inner (child path e.1) e.2 := by
  induction entries with
  | nil =>
    rw [filesIn] at h
    exact nomatch h
  | cons e rest ih =>
    rw [filesIn] at h
    rcases List.mem_append.mp h with hhere | hrest
    · split at hhere
      · exact nomatch hhere
      · exact ⟨e, List.mem_cons_self, hhere⟩
    · obtain ⟨e', he', hfile⟩ := ih hrest
      exact ⟨e', List.mem_cons_of_mem _ he', hfile⟩

/-- **A walk lists files with paths that denote them**, if it starts where its path leads. -/
theorem find?_of_mem_filesAt {node : Node} (hproper : node.Proper)
    (hat : walk.fs.find? path = some node) (h : file ∈ walk.filesAt inner path node) :
    walk.fs.find? file.1 = some (.file file.2) := by
  induction hproper generalizing inner path with
  | file bytes =>
    rw [filesAt] at h
    obtain rfl := List.mem_singleton.mp h
    exact hat
  | directory different names nodes ih =>
    rw [filesAt] at h
    obtain ⟨⟨name, node⟩, hmem, hfile⟩ := exists_entry_of_mem_filesIn h
    have hentry := Node.lookup_of_mem different hmem
    exact ih _ hmem (FileSystem.find?_child (names _ hmem) hat hentry) hfile

end Walk

/-- The files below a directory are listed with paths that denote them. -/
theorem find?_of_mem_filesBelow {env : Environment} {hidden : Bool} {path : String}
    {file : String × ByteArray} (hproper : env.files.top.Proper)
    (h : file ∈ filesBelow env hidden path) : env.files.find? file.1 = some (.file file.2) := by
  rw [filesBelow] at h
  split at h
  · exact nomatch h
  · rename_i names hnames
    split at h
    · rename_i node hnode
      have hat : env.files.find? path = some node := by
        rw [FileSystem.find?, hnames]
        exact hnode
      refine Walk.find?_of_mem_filesAt (FileSystem.proper_of_find? hproper hat) ?_ h
      exact hat
    · exact nomatch h

end PhpTypes.Files
