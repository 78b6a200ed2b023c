import Mathlib.Data.List.Perm.Subperm
import PhpTypes.Php.Scan
import PhpTypes.Proofs.Php.Declared
import PhpTypes.Proofs.Php.Lexer
import PhpTypes.Proofs.Php.Reading

/-!
# What a scan reports

A scan reports the routines at the searched sites of a text, in the order of the text and each
once, with the scope of its site and with the doc comment in front of it (`scan_reports`). The
shortcut for texts without parentheses changes nothing, since a routine is read from a token that
opens its list of parameters. Nothing is missed in a text exactly if all of its sites are searched
(`scans_searched`): what is declared in a compound statement or in the body of a routine is not
reported.

Bodies within expressions, such as those of closures, are no statements and have no sites.
-/

namespace PhpTypes.Php

/-! ## Sites are read from tokens -/

section Reading

variable {tokens : List Token} {program : List Statement}

/-- The statements of a body are read from the tokens of the statement around it. -/
theorem Statement.Opens.readFrom {s : Statement} {opener : Opener} {body : List Statement}
    (hopens : s.Opens opener body) (h : s.ReadFrom tokens) : ∀ t ∈ body, t.ReadFrom tokens := by
  cases hopens with
  | space => cases h with | space hbody => exact hbody
  | block => cases h with | block hbody => exact hbody
  | compound => cases h with | compound hbody => exact hbody
  | function => cases h with | function _ hbody => exact hbody
  | method hmember =>
    cases h with | classLike _ hbody => exact hbody _ _ (List.mem_of_getElem? hmember)

/-- What a statement declares is read from its tokens. -/
theorem Statement.Declares.readFrom {s : Statement} {i : Nat} {head : RoutineHead}
    {className : Option String} (hdeclares : s.Declares i head className)
    (h : s.ReadFrom tokens) : head.ReadFrom tokens := by
  cases hdeclares with
  | function => cases h with | function hhead => exact hhead
  | method hmember =>
    cases h with | classLike hhead => exact hhead _ _ (List.mem_of_getElem? hmember)

/-- However deep a statement stands, it is read from the tokens of the program. -/
theorem Stands.readFrom {levels : List Level} {before : List Statement} {s : Statement}
    (hstands : Stands program levels before s) (h : ∀ t ∈ program, t.ReadFrom tokens) :
    s.ReadFrom tokens := by
  induction hstands with
  | outer heq => exact h _ (heq ▸ List.mem_append_right _ List.mem_cons_self)
  | inner _ hopens heq ih =>
    exact hopens.readFrom ih _ (heq ▸ List.mem_append_right _ List.mem_cons_self)

/-- The head of a declared routine is read from the tokens of the program. -/
theorem Site.In.readFrom {site : Site} (h : site.In (readProgram tokens)) :
    site.head.ReadFrom tokens := by
  obtain ⟨s, hstands, hdeclares⟩ := h
  exact hdeclares.readFrom (hstands.readFrom (readProgram_readFrom tokens))

end Reading

/-! ## What is reported -/

/-- The statements of a text. -/
def programOf (source : String) : List Statement :=
  readProgram (lex source.toList).1

/-- The doc comment in front of a place of a text: the last one, if only white space is left of the
text between the two. -/
def docAt (source : String) (start : Nat) : Option Trivia :=
  let trivia := (lex source.toList).2
  (lastDoc? trivia start).filter fun doc =>
    (remaining source.toList.toArray trivia doc.stop start).all Lexer.isSpace

/-- The routine is the one that is declared at the site. -/
structure Site.Yields (site : Site) (routine : Routine) : Prop where
  name_eq : routine.name = site.head.name
  className_eq : routine.className = site.className
  parameters_eq : routine.parameters = site.head.parameters.map ParameterDecl.toParameter
  returnHint_eq : routine.returnHint = site.head.returns.map Hint.toText

/-- The routine is the one that is declared at the site of a text, with what surrounds it there. -/
structure Site.YieldsIn (source : String) (site : Site) (routine : Routine) : Prop
    extends site.Yields routine where
  scope_eq : routine.scope = registerAll site.uses (.ofNamespace (spaceName site.levels))
  doc_eq : routine.doc = (docAt source site.head.start).map fun t => .parse t.text

/-- The sites of a text that have a property are listed, each once and in the order of the text. -/
structure Lists (source : String) (p : Site → Prop) (sites : List Site) : Prop where
  ordered : sites.Pairwise (·.place < ·.place)
  mem_iff : ∀ site, site ∈ sites ↔ site.In (programOf source) ∧ p site

/-- A scan of the text reports one routine for each of the sites that have a property, in the order
of the text, and no other routine. -/
def Scans (source : String) (p : Site → Prop) : Prop :=
  ∃ sites : List Site, Lists source p sites ∧ List.Forall₂ Site.Yields sites (scan source)

variable {source : String} {site : Site}

/-- The text of a routine has a parenthesis. -/
theorem parens_mem_of_in (h : site.In (programOf source)) : '(' ∈ source.toList := by
  obtain ⟨t, ht, htext⟩ := h.readFrom.parens_mem
  refine mem_of_mem_token ht ?_
  rw [htext]
  exact List.mem_singleton_self _

/-- The walk lists the searched sites. -/
theorem lists_searched (source : String) :
    Lists source Site.Searched (sitesFrom Opener.isSearched [] [] (programOf source)) :=
  ⟨pairwise_sitesFrom _ _, fun _ => mem_sitesFrom_iff⟩

/-- A walk that enters all bodies lists all sites. -/
theorem lists_all (source : String) :
    Lists source (fun _ => True) (sitesFrom (fun _ => true) [] [] (programOf source)) where
  ordered := pairwise_sitesFrom _ _
  mem_iff site := by
    have hall : site.Within fun _ => true := fun _ _ => rfl
    exact mem_sitesFrom_iff.trans (and_congr_right fun _ => iff_of_true hall trivial)

/-- A scan takes the searched sites one after the other, with and without the shortcut. -/
theorem scan_eq (source : String) :
    scan source = (sitesFrom Opener.isSearched [] [] (programOf source)).map fun site =>
      site.declared.toRoutine source.toList.toArray (lex source.toList).2 := by
  rw [scan]
  dsimp only
  split
  · next hnone =>
    have hsites : sitesFrom Opener.isSearched [] [] (programOf source) = [] := by
      refine List.eq_nil_iff_forall_not_mem.mpr fun site hsite => ?_
      have hmem := parens_mem_of_in ((lists_searched source).mem_iff site |>.mp hsite).1
      rw [List.contains_iff_mem.mpr hmem] at hnone
      cases hnone
    rw [hsites, List.map_nil]
  · have heq : declaredIn .empty (programOf source) =
        (sitesFrom Opener.isSearched [] [] (programOf source)).map Site.declared :=
      declaredIn_eq [] [] _
    rw [← programOf, heq, List.map_map]
    rfl

/-- The search for a doc comment finds the one in front of a declared routine. -/
theorem precedingDoc_eq_docAt (h : site.In (programOf source)) :
    precedingDoc source.toList.toArray (lex source.toList).2 site.head.start =
      docAt source site.head.start := by
  obtain ⟨t, ht, hstart⟩ := h.readFrom.start_mem
  have haround := hstart ▸ around_of_mem_tokens ht
  ext doc
  rw [docAt, Option.filter_eq_some_iff, precedingDoc_eq_some_iff haround]

/-- A site yields the routine that is made of what is declared there. -/
theorem yieldsIn_toRoutine (h : site.In (programOf source)) :
    site.YieldsIn source
      (site.declared.toRoutine source.toList.toArray (lex source.toList).2) where
  name_eq := rfl
  className_eq := rfl
  parameters_eq := rfl
  returnHint_eq := rfl
  scope_eq := rfl
  doc_eq := congrArg (Option.map _) (precedingDoc_eq_docAt h)

/-- **A scan reports the routines at the searched sites of a text, with what surrounds them.** -/
theorem scan_reports (source : String) : ∃ sites, Lists source Site.Searched sites ∧
    List.Forall₂ (Site.YieldsIn source) sites (scan source) := by
  have hlists := lists_searched source
  refine ⟨_, hlists, ?_⟩
  rw [scan_eq, List.forall₂_map_right_iff, List.forall₂_same]
  exact fun site hsite => yieldsIn_toRoutine ((hlists.mem_iff site).mp hsite).1

/-! ## What is missed -/

namespace Lists

variable {p q : Site → Prop} {sites others : List Site}

/-- A list of sites in order lists none of them twice. -/
theorem nodup (h : Lists source p sites) : sites.Nodup :=
  h.ordered.imp fun {a b} hlt (heq : a = b) => List.lt_irrefl _ (heq ▸ hlt)

/-- If as many sites have one property as have another that follows from it, they are the same. -/
theorem forall_of_length_eq (h : Lists source p sites) (h' : Lists source q others)
    (himp : ∀ site, p site → q site) (hlength : sites.length = others.length) :
    ∀ site, site.In (programOf source) → q site → p site := by
  have hsubset : sites ⊆ others := fun site hsite =>
    (h'.mem_iff site).mpr (((h.mem_iff site).mp hsite).imp_right (himp site))
  have hperm : sites.Perm others :=
    (List.subperm_of_subset h.nodup hsubset).perm_of_length_le hlength.ge
  intro site hin hq
  exact ((h.mem_iff site).mp (hperm.mem_iff.mpr ((h'.mem_iff site).mpr ⟨hin, hq⟩))).2

/-- The sites that have a property make up one list. -/
theorem length_eq (h : Lists source p sites) (h' : Lists source p others) :
    sites.length = others.length := by
  refine List.Perm.length_eq ((List.perm_ext_iff_of_nodup h.nodup h'.nodup).mpr fun site => ?_)
  exact (h.mem_iff site).trans (h'.mem_iff site).symm

end Lists

/-- There are as many routines as sites. -/
theorem Scans.length_eq {p : Site → Prop} {sites : List Site} (h : Scans source p)
    (hsites : Lists source p sites) : (scan source).length = sites.length := by
  obtain ⟨others, hothers, hyields⟩ := h
  exact hyields.length_eq.symm.trans (hothers.length_eq hsites)

/-- **A scan reports the routines at searched sites, and it misses nothing exactly if all sites of
the text are searched.** -/
theorem scans_searched (source : String) : Scans source Site.Searched ∧
    (Scans source (fun _ => True) ↔ ∀ site : Site, site.In (programOf source) → site.Searched) := by
  obtain ⟨sites, hlists, hreports⟩ := scan_reports source
  have hyields : List.Forall₂ Site.Yields sites (scan source) :=
    hreports.imp fun _ _ h => h.toYields
  refine ⟨⟨sites, hlists, hyields⟩, fun ⟨all, hall, hnames⟩ site hin => ?_, fun h => ?_⟩
  · have hlength : sites.length = all.length := hyields.length_eq.trans hnames.length_eq.symm
    exact hlists.forall_of_length_eq hall (fun _ _ => trivial) hlength site hin trivial
  · refine ⟨sites, ⟨hlists.ordered, fun site => ?_⟩, hyields⟩
    rw [hlists.mem_iff]
    exact and_congr_right fun hin => iff_of_true (h site hin) trivial

/-- A function that is declared for old versions of the language only is missed. -/
theorem not_scans_conditional :
    let source := "<?php\nif (PHP_VERSION_ID < 80000) \x7b function f() \x7b\x7d \x7d"
    ¬ Scans source fun _ => True := by
  intro source h
  have hnone : (scan source).length = 0 := by decide +kernel
  have hone : (sitesFrom (fun _ => true) [] [] (programOf source)).length = 1 := by decide +kernel
  have hlength := h.length_eq (lists_all source)
  rw [hnone, hone] at hlength
  cases hlength

end PhpTypes.Php
