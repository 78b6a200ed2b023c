import PhpTypes.CommandLine.Run
import PhpTypes.Proofs.Files.Path
import PhpTypes.Proofs.Files.Walk
import PhpTypes.Proofs.Report.Scan

/-!
# Scans

A scan collects files, reads each of them as far as it can be read, and reports. Files that cannot
be read show in the exit code and in the messages alone: the output is that of a scan of the others.
The files are collected in the order of their paths, so that the order of the arguments does not
matter (`runRequest_scan`).
-/

namespace PhpTypes.CommandLine

open Files

/-! ## Collected files -/

section Collecting

variable {config : Config} {env : Environment} {paths : List String}

/-- Whether paths that compare equal are written alike. -/
def SpelledAlike (files : List (String × ByteArray)) : Prop :=
  ∀ a ∈ files, ∀ b ∈ files, comparePaths a.1 b.1 = .eq → a.1 = b.1

instance : DecidablePred SpelledAlike :=
  fun files => inferInstanceAs (Decidable (∀ a ∈ files, ∀ b ∈ files, _))

/-- Every collected file has a path that denotes it. -/
theorem find?_of_mem_collect {path : String} {file : String × ByteArray}
    (hproper : env.files.top.Proper) (h : file ∈ collect config env path) :
    env.files.find? file.1 = some (.file file.2) := by
  rw [collect] at h
  split at h
  · rename_i bytes hbytes
    obtain rfl := List.mem_singleton.mp h
    exact hbytes
  · split at h
    · exact nomatch h
    · exact find?_of_mem_filesBelow hproper (List.mem_filter.mp h).1

/-- **The order of the paths does not matter** for the files that they stand for, because files with
the same path have the same bytes. -/
theorem collectAll_of_perm (hproper : env.files.top.Proper)
    (hspelled : SpelledAlike (paths.flatMap (collect config env))) {paths' : List String}
    (hperm : paths'.Perm paths) : collectAll config env paths' = collectAll config env paths := by
  have hfound : ∀ a ∈ paths.flatMap (collect config env),
      env.files.find? a.1 = some (.file a.2) := by
    intro a ha
    obtain ⟨path, -, hmem⟩ := List.mem_flatMap.mp ha
    exact find?_of_mem_collect hproper hmem
  refine mergeSort_inOrder_of_perm (hperm.flatMap_right _) fun a ha b hb heq => ?_
  have hpath : a.1 = b.1 := hspelled a ha b hb heq
  -- The path leads to one file only, wherever the two were found.
  have hbytes : Node.file a.2 = Node.file b.2 := by
    refine Option.some.inj ?_
    rw [← hfound a ha, hpath, hfound b hb]
  exact Prod.ext hpath (Node.file.inj hbytes)

end Collecting

/-! ## Read files -/

/-- The output is that of a report on the files that could be scanned. -/
theorem output_reportFiles_readable (json : Bool) (files : List Report.ScannedFile) :
    (reportFiles json (Report.readable files)).output = (reportFiles json files).output := by
  obtain ⟨scan, hscan, -, hreadable⟩ := Report.Scan.ofFiles_readable files
  rw [reportFiles, reportFiles, hscan, hreadable]
  rfl

/-- The exit code tells whether there are other files. -/
theorem code_reportFiles (json : Bool) (files : List Report.ScannedFile) :
    (reportFiles json files).code = if ∃ file ∈ files, file.2.isOk = false then 1 else 0 := by
  obtain ⟨scan, hscan, hfailures, -⟩ := Report.Scan.ofFiles_readable files
  have hcode : (reportFiles json files).code = if scan.failures = [] then 0 else 1 := by
    rw [reportFiles, hscan]
    simp only [List.isEmpty_iff]
  rw [hcode, hfailures]
  by_cases hall : ∀ file ∈ files, file.2.isOk = true
  · rw [if_pos (Report.Scan.scanErrors_eq_nil_iff.mpr hall), if_neg]
    rintro ⟨file, hfile, hfails⟩
    exact absurd (hall file hfile) (by simp [hfails])
  · rw [if_neg fun hnil => hall (Report.Scan.scanErrors_eq_nil_iff.mp hnil), if_pos]
    simpa using hall

/-- The outcome of a scan of files that are read with `read`. -/
def scanWith (read : String × ByteArray → Option String) (json : Bool)
    (files : List (String × ByteArray)) : Outcome :=
  reportFiles json (files.map fun file => (file.1, Php.scanRead file.1 (read file)))

section Reading

variable (read : String × ByteArray → Option String) (json : Bool)
  (files : List (String × ByteArray))

/-- The output is that of a scan of the files that can be read. -/
theorem output_scanWith_filter :
    (scanWith read json (files.filter fun file => (read file).isSome)).output =
      (scanWith read json files).output := by
  rw [scanWith, scanWith, ← output_reportFiles_readable json (files.map _), Report.readable,
    List.filter_map]
  simp only [Function.comp_def, Php.isOk_scanRead]

/-- The exit code tells whether a file cannot be read. -/
theorem code_scanWith :
    (scanWith read json files).code = if ∃ file ∈ files, read file = none then 1 else 0 := by
  rw [scanWith, code_reportFiles]
  simp only [List.mem_map, exists_exists_and_eq_and, Php.isOk_scanRead, Option.isSome_eq_false_iff,
    Option.isNone_iff_eq_none]

end Reading

/-- The text of a file, if its bytes are text. -/
def textOf (file : String × ByteArray) : Option String :=
  String.fromUTF8? file.2

/-- A collected file is read as its bytes. -/
theorem scanFile_of_mem_collectAll {config : Config} {env : Environment} {paths : List String}
    (hproper : env.files.top.Proper) {file : String × ByteArray}
    (h : file ∈ collectAll config env paths) :
    Php.scanFile env.files file.1 = Php.scanRead file.1 (textOf file) := by
  obtain ⟨path, -, hmem⟩ := List.mem_flatMap.mp (List.mem_mergeSort.mp h)
  rw [Php.scanFile, FileSystem.readText?, find?_of_mem_collect hproper hmem]
  rfl

/-- **A scan does not depend on the order of its arguments, and its output not on files that cannot
be read.** The output is that of a scan of the files that can be read; the exit code is 1 if there
are others. This holds in whatever way files are read; a run takes their bytes as text. -/
theorem runRequest_scan {explicit : Option String} {json : Bool} {env : Environment}
    {config : Config} {paths : List String}
    (hconfig : Config.load explicit env.files env.settings = .ok config)
    (hproper : env.files.top.Proper)
    (hspelled : SpelledAlike (paths.flatMap (collect config env))) :
    (∀ arguments : List String, runRequest ⟨explicit, json, .scan arguments⟩ env =
      scanWith textOf json (collectAll config env arguments)) ∧
      ∀ read : String × ByteArray → Option String,
        let outcome := scanWith read json (collectAll config env paths)
        outcome.output = (scanWith read json
            ((collectAll config env paths).filter fun file => (read file).isSome)).output ∧
          outcome.code =
            (if ∃ file ∈ collectAll config env paths, read file = none then 1 else 0) ∧
          ∀ paths' : List String, paths'.Perm paths →
            scanWith read json (collectAll config env paths') = outcome := by
  refine ⟨fun arguments => ?_, fun read => ⟨?_, code_scanWith .., fun paths' hperm => ?_⟩⟩
  · -- Every file is read as the bytes that were collected with it.
    have hscanned := List.map_congr_left
      fun file (hfile : file ∈ collectAll config env arguments) =>
        congrArg (Prod.mk file.1) (scanFile_of_mem_collectAll hproper hfile)
    rw [runRequest, hconfig, scanWith, ← hscanned]
  · exact (output_scanWith_filter ..).symm
  · rw [collectAll_of_perm hproper hspelled hperm]

/-- A directory with a file in which a function is declared and a file that is no text. -/
def mixedFiles : Environment where
  files :=
    let declared := Node.empty.insert "<?php function f(int $n) \x7b\x7d".toUTF8 ["a.php"]
    ⟨declared.insert ⟨#[0xff]⟩ ["b.php"], []⟩
  settings := default
  home := default

/-- A scan of the two files, in either order. -/
theorem runRequest_scan_of_mixedFiles :
    runRequest ⟨none, true, .scan ["b.php", "a.php"]⟩ mixedFiles =
        runRequest ⟨none, true, .scan ["a.php", "b.php"]⟩ mixedFiles ∧
      (runRequest ⟨none, true, .scan ["a.php", "b.php"]⟩ mixedFiles).code = 1 := by
  have hproper : mixedFiles.files.top.Proper :=
    (Node.Proper.empty.insert _ (by decide)).insert _ (by decide)
  have hspelled : SpelledAlike (["a.php", "b.php"].flatMap (collect .default mixedFiles)) := by
    decide
  have hunread : ("b.php", ⟨#[0xff]⟩) ∈ collectAll .default mixedFiles ["a.php", "b.php"] :=
    List.mem_mergeSort.mpr <|
      List.mem_flatMap.mpr ⟨"b.php", by decide, List.mem_singleton_self _⟩
  obtain ⟨hrun, hread⟩ := @runRequest_scan none true mixedFiles .default ["a.php", "b.php"] rfl
    hproper hspelled
  obtain ⟨-, hcode, hperm⟩ := hread textOf
  rw [hrun, hrun]
  exact ⟨hperm _ (.swap ..), hcode.trans (if_pos ⟨_, hunread, by decide⟩)⟩

end PhpTypes.CommandLine
