import PhpTypes.Proofs.Registry.Describe
import PhpTypes.Proofs.Signature.Merge
import PhpTypes.Report.Scan

/-!
# What a report says

A report is made file by file and routine by routine, and the types of a routine are written as soon
as it has been merged. The report is nevertheless the one that would be made at the end: it lists
the merged signatures of all routines, written in the final project (`Report.Scan.ofFiles_eq`). A
file that cannot be read has no influence on the project or on the other entries
(`Report.Scan.ofFiles_readable`).
-/

namespace PhpTypes

namespace Signature

/-- To merge a list in two parts is to merge it at once. -/
theorem mergeAll_append {routines rest : List Routine} {merged others : List Signature}
    {project r₁ r₂ : Registry} (hmerge : mergeAll routines project = .ok (merged, r₁))
    (hothers : mergeAll rest r₁ = .ok (others, r₂)) :
    mergeAll (routines ++ rest) project = .ok (merged ++ others, r₂) := by
  have happend (project : Registry) : mergeAll (routines ++ rest) project =
      mergeAll routines project >>= fun first => mergeAll rest first.2 >>= fun second =>
        pure (first.1 ++ second.1, second.2) := by
    clear hmerge
    induction routines generalizing project with
    | nil => exact (bind_pure (mergeAll rest project)).symm
    | cons routine routines ih =>
      simp only [List.cons_append, mergeAll, ih, bind_assoc, pure_bind]
  rw [happend, hmerge]
  show (mergeAll rest r₁ >>= _) = _
  rw [hothers]
  rfl

end Signature

namespace Report

/-- The routines of all files that could be scanned, each with its file. -/
def located (files : List ScannedFile) : List (String × Routine) :=
  files.flatMap fun file => (file.2.toOption.getD []).map (file.1, ·)

/-- The files that could be scanned. -/
def readable (files : List ScannedFile) : List ScannedFile :=
  files.filter (·.2.isOk)

/-- What went wrong with the other files. -/
def scanErrors : List ScannedFile → List Php.ScanError
  | [] => []
  | (_, .ok _) :: rest => scanErrors rest
  | (_, .error e) :: rest => e :: scanErrors rest

namespace Scan

/-- Merged signatures as they are written in a project. -/
def entries (project : Registry) (places : List (String × Routine)) (merged : List Signature) :
    List RoutineEntry :=
  places.zipWith (fun place s => entry project place.1 place.2 s) merged

variable {r r' : Registry} {scan : Scan}

/-- An entry that was written in the project is written in the same way later. -/
theorem entry_extend (h : r.WellFormed) (h' : r'.WellFormed) (hext : r.Extends r')
    {s : Signature} (howns : ∀ m ∈ s.masks, r.Owns m) (file : String) (routine : Routine) :
    entry r' file routine s = entry r file routine s := by
  have hparameters : ∀ p ∈ s.parameters, r'.describe p.mask = r.describe p.mask :=
    fun p hp => Registry.describe_extend h h' hext (howns p.mask (Signature.mask_mem_masks hp))
  have hreturns : r'.describe s.returns = r.describe s.returns :=
    Registry.describe_extend h h' hext (howns s.returns s.returns_mem_masks)
  rw [entry, entry, hreturns]
  congr 1
  refine List.map_congr_left fun p hp => ?_
  rw [hparameters p hp]

/-- Entries that were written in the project are written in the same way later. -/
theorem entries_extend (h : r.WellFormed) (h' : r'.WellFormed) (hext : r.Extends r')
    {merged : List Signature} (howns : ∀ s ∈ merged, ∀ m ∈ s.masks, r.Owns m)
    (places : List (String × Routine)) :
    entries r' places merged = entries r places merged := by
  induction merged generalizing places with
  | nil => rw [entries, entries, List.zipWith_nil_right, List.zipWith_nil_right]
  | cons s merged ih =>
    cases places with
    | nil => rw [entries, entries, List.zipWith_nil_left, List.zipWith_nil_left]
    | cons place places =>
      have hhead := entry_extend h h' hext (howns s List.mem_cons_self) place.1 place.2
      have htail := ih (fun s hs => howns s (List.mem_cons_of_mem _ hs)) places
      exact congrArg₂ List.cons hhead htail

/-! ## One file -/

/-- The routines of a file are merged in order, and their entries are those of the project
afterwards. -/
theorem foldlM_addRoutine (h : scan.project.WellFormed) {file : String} {routines : List Routine}
    {merged : List Signature} {project : Registry}
    (hmerge : Signature.mergeAll routines scan.project = .ok (merged, project)) :
    routines.foldlM (addRoutine file) scan = .ok { scan with
      project
      routines := scan.routines ++ entries project (routines.map (file, ·)) merged } := by
  induction routines generalizing scan merged with
  | nil =>
    obtain ⟨rfl, rfl⟩ := Prod.mk.inj (Except.ok.inj hmerge)
    rw [entries, List.zipWith_nil_right, List.append_nil]
    rfl
  | cons routine rest ih =>
    obtain ⟨hwf, -, howns⟩ := Signature.resolve_sound .empty routine
    obtain ⟨s, r₁, hmove, hreceives, hownsS, -⟩ := Signature.transfer_spec hwf h howns
    obtain ⟨others, r₂, hothers, hreceives', -⟩ :=
      Signature.mergeAll_spec hreceives.wellFormed rest
    obtain ⟨rfl, rfl⟩ : s :: others = merged ∧ r₂ = project :=
      Prod.mk.inj (Except.ok.inj ((Signature.mergeAll_cons hmove hothers).symm.trans hmerge))
    have hadd : addRoutine file scan routine = .ok { scan with
        project := r₁
        routines := scan.routines ++ [entry r₁ file routine s] } := by
      simp only [addRoutine]
      rw [hmove]
      rfl
    -- The later routines leave the texts of this entry alone.
    have hentry : entry r₂ file routine s = entry r₁ file routine s :=
      entry_extend hreceives.wellFormed hreceives'.wellFormed hreceives'.grows hownsS file routine
    rw [List.foldlM_cons, hadd]
    refine (ih hreceives.wellFormed hothers).trans ?_
    rw [← hentry, List.append_assoc]
    rfl

/-! ## All files -/

/-- The entries of two groups of routines come one after the other. -/
theorem entries_append {places rest : List (String × Routine)} {merged others : List Signature}
    (hlen : places.length = merged.length) (project : Registry) :
    entries project (places ++ rest) (merged ++ others) =
      entries project places merged ++ entries project rest others :=
  List.zipWith_append hlen

/-- The routines of all files are merged in order, and their entries are those of the final
project. -/
theorem foldlM_addFile (h : scan.project.WellFormed) {files : List ScannedFile}
    {merged : List Signature} {project : Registry}
    (hmerge : Signature.mergeAll ((located files).map (·.2)) scan.project = .ok (merged, project)) :
    files.foldlM addFile scan = .ok {
      project
      routines := scan.routines ++ entries project (located files) merged
      failures := scan.failures ++ scanErrors files } := by
  induction files generalizing scan merged with
  | nil =>
    obtain ⟨rfl, rfl⟩ := Prod.mk.inj (Except.ok.inj hmerge)
    simp [entries, located, scanErrors, pure, Except.pure]
  | cons file rest ih =>
    obtain ⟨path, found⟩ := file
    cases found with
    | error e =>
      have hproject :
          ({ scan with failures := scan.failures ++ [e] } : Scan).project.WellFormed := h
      rw [List.foldlM_cons]
      refine (ih hproject hmerge).trans ?_
      rw [List.append_assoc]
      rfl
    | ok routines =>
      obtain ⟨first, r₁, hfirst, hreceives, howns, hrenders⟩ := Signature.mergeAll_spec h routines
      obtain ⟨others, r₂, hothers, hreceives', -⟩ :=
        Signature.mergeAll_spec hreceives.wellFormed ((located rest).map (·.2))
      have hsplit : (located ((path, .ok routines) :: rest)).map (·.2) =
          routines ++ (located rest).map (·.2) := by
        simp [located, Except.toOption, Function.comp_def]
      have hall := Signature.mergeAll_append hfirst hothers
      rw [← hsplit] at hall
      obtain ⟨rfl, rfl⟩ : first ++ others = merged ∧ r₂ = project :=
        Prod.mk.inj (Except.ok.inj (hall.symm.trans hmerge))
      -- The entries of this file are written in the project as it is now; the later files leave
      -- them as they are.
      have hadd : addFile scan (path, .ok routines) = .ok { scan with
          project := r₁
          routines := scan.routines ++ entries r₂ (routines.map (path, ·)) first } := by
        rw [entries_extend hreceives.wellFormed hreceives'.wellFormed hreceives'.grows howns]
        exact foldlM_addRoutine h hfirst
      rw [List.foldlM_cons, hadd]
      refine (ih hreceives.wellFormed hothers).trans ?_
      have hlen : (routines.map (path, ·)).length = first.length := by
        rw [List.length_map, hrenders.length_eq]
      rw [List.append_assoc, ← entries_append hlen]
      rfl

/-- **A report says what a merge of all routines says.** It never fails, and its texts, though they
were written while the project was growing, are those of the final project. -/
theorem ofFiles_eq (files : List ScannedFile) :
    ∃ merged project,
      Signature.mergeAll ((located files).map (·.2)) .empty = .ok (merged, project) ∧
      Signature.Merged ((located files).map (·.2)) merged project ∧
      ofFiles files = .ok {
        project
        routines := entries project (located files) merged
        failures := scanErrors files } := by
  obtain ⟨merged, project, hmerge, -, hmerged⟩ :=
    Signature.exists_merged ((located files).map (·.2))
  exact ⟨merged, project, hmerge, hmerged, foldlM_addFile .empty hmerge⟩

/-! ## Files that cannot be read -/

/-- Files that could not be scanned have no routines. -/
theorem located_readable (files : List ScannedFile) : located (readable files) = located files := by
  induction files with
  | nil => rfl
  | cons file rest ih =>
    obtain ⟨path, found⟩ := file
    cases found with
    | error e => exact ih
    | ok routines =>
      show _ ++ located (readable rest) = _
      rw [ih]
      rfl

/-- Nothing went wrong exactly if all files could be scanned. -/
theorem scanErrors_eq_nil_iff {files : List ScannedFile} :
    scanErrors files = [] ↔ ∀ file ∈ files, file.2.isOk = true := by
  induction files with
  | nil => simp [scanErrors]
  | cons file rest ih =>
    obtain ⟨path, found⟩ := file
    cases found with
    | error e => simp [scanErrors, Except.isOk, Except.toBool]
    | ok routines => simp [scanErrors, Except.isOk, Except.toBool, ih]

/-- **Files that cannot be read are noted and nothing else**: without them, the report has the same
project and the same entries. -/
theorem ofFiles_readable (files : List ScannedFile) :
    ∃ scan, ofFiles files = .ok scan ∧ scan.failures = scanErrors files ∧
      ofFiles (readable files) = .ok { scan with failures := [] } := by
  obtain ⟨merged, project, hmerge, -, hscan⟩ := ofFiles_eq files
  obtain ⟨merged', project', hmerge', -, hscan'⟩ := ofFiles_eq (readable files)
  rw [located_readable] at hmerge' hscan'
  obtain ⟨rfl, rfl⟩ : merged = merged' ∧ project = project' :=
    Prod.mk.inj (Except.ok.inj (hmerge.symm.trans hmerge'))
  have hnone : scanErrors (readable files) = [] :=
    scanErrors_eq_nil_iff.mpr fun file hfile => (List.mem_filter.mp hfile).2
  rw [hnone] at hscan'
  exact ⟨_, hscan, rfl, hscan'⟩

end Scan

end Report

end PhpTypes
