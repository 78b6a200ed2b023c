import Mathlib.Data.List.Basic
import PhpTypes.Php.Declared

/-!
# Where routines are declared

A routine is declared at a site of a program: in some list of statements, behind the statements in
front of it, and within the levels of nesting around that list (`Site.In`). Every site has a place,
and the order of places is the order of the text.

A walk that enters some bodies (`sitesFrom`) lists the sites that are not in any other bodies
(`mem_sitesFrom_iff`), and it goes through the text from its start to its end
(`pairwise_sitesFrom`). The sites that are searched for routines are those within namespaces and
blocks.
-/

namespace PhpTypes.Php

/-! ## Levels of nesting -/

/-- What a list of statements is the body of. -/
inductive Opener where
  | space (name : Option String)
  | block
  | compound (kind : Compound)
  /-- A function, or the method at this place among the members of a class. -/
  | routine (member : Nat)

namespace Opener

/-- The place of the body in its statement. -/
def member : Opener → Nat
  | routine member => member
  | _ => 0

/-- Whether the body is searched for routines. -/
def isSearched : Opener → Bool
  | space _ => true
  | block => true
  | compound _ => false
  | routine _ => false

end Opener

/-- The statement has this body. -/
inductive Statement.Opens : Statement → Opener → List Statement → Prop
  | space {name : Option String} {body : List Statement} :
    Opens (.space name body) (.space name) body
  | block {body : List Statement} : Opens (.block body) .block body
  | compound {kind : Compound} {body : List Statement} :
    Opens (.compound kind body) (.compound kind) body
  | function {head : RoutineHead} {body : List Statement} :
    Opens (.function head body) (.routine 0) body
  | method {kind : ClassKind} {name : String} {members : List Member} {i : Nat} {head : RoutineHead}
    {body : List Statement} (h : members[i]? = some (.method head body)) :
    Opens (.classLike kind name members) (.routine i) body

/-- A body that is open, with the statements in front of the one that it belongs to. -/
structure Level where
  opener : Opener
  before : List Statement

/-- The statement stands in the program, within these levels, the innermost first, and behind these
statements of its own list. -/
inductive Stands (program : List Statement) : List Level → List Statement → Statement → Prop
  | outer {before : List Statement} {s : Statement} {after : List Statement}
    (h : program = before ++ s :: after) : Stands program [] before s
  | inner {levels : List Level} {outer : List Statement} {holder : Statement} {opener : Opener}
    {body before : List Statement} {s : Statement} {after : List Statement}
    (hholder : Stands program levels outer holder) (hopens : holder.Opens opener body)
    (h : body = before ++ s :: after) : Stands program (⟨opener, outer⟩ :: levels) before s

/-! ## Sites -/

/-- A place where a routine is declared, with what it declares. -/
structure Site where
  /-- The levels of nesting, the innermost first. -/
  levels : List Level
  /-- The statements in front of the declaration in its own list. -/
  before : List Statement
  /-- The place of a method among the members of its class. -/
  member : Nat
  head : RoutineHead
  className : Option String

/-- The statement declares a routine: itself, or at a place among its members. -/
inductive Statement.Declares : Statement → Nat → RoutineHead → Option String → Prop
  | function {head : RoutineHead} {body : List Statement} :
    Declares (.function head body) 0 head none
  | method {kind : ClassKind} {name : String} {members : List Member} {i : Nat} {head : RoutineHead}
    {body : List Statement} (h : members[i]? = some (.method head body)) :
    Declares (.classLike kind name members) i head (some name)

/-- The place of the lists of statements within these levels. -/
def placeOf (levels : List Level) : List Nat :=
  levels.reverse.flatMap fun level => [level.before.length, level.opener.member]

namespace Site

/-- The site is one of the program. -/
def In (site : Site) (program : List Statement) : Prop :=
  ∃ s, Stands program site.levels site.before s ∧ s.Declares site.member site.head site.className

/-- The site is in no body but the ones that are entered. -/
def Within (site : Site) (enter : Opener → Bool) : Prop :=
  ∀ level ∈ site.levels, enter level.opener = true

/-- The site is in no body but the ones that are searched. -/
def Searched (site : Site) : Prop :=
  site.Within Opener.isSearched

/-- The place in the program: which statement it is, level by level from the outermost, and which of
its members. -/
def place (site : Site) : List Nat :=
  placeOf site.levels ++ [site.before.length, site.member]

end Site

/-! ## The walk -/

section Walk

variable (enter : Opener → Bool)

mutual

/-- The sites of a member of a class. -/
def Member.sites (levels : List Level) (before : List Statement) (className : String) (i : Nat) :
    Member → List Site
  | .method head body =>
    ⟨levels, before, i, head, some className⟩ ::
      if enter (.routine i) then sitesFrom (⟨.routine i, before⟩ :: levels) [] body else []
  | .other => []
termination_by structural member => member

/-- The sites of the members of a class from the place `i` on. -/
def memberSites (levels : List Level) (before : List Statement) (className : String) (i : Nat) :
    List Member → List Site
  | [] => []
  | member :: rest =>
    member.sites levels before className i ++ memberSites levels before className (i + 1) rest
termination_by structural members => members

/-- The sites of a statement. -/
def Statement.sites (levels : List Level) (before : List Statement) : Statement → List Site
  | .imports _ => []
  | .space name body =>
    if enter (.space name) then sitesFrom (⟨.space name, before⟩ :: levels) [] body else []
  | .block body => if enter .block then sitesFrom (⟨.block, before⟩ :: levels) [] body else []
  | .function head body =>
    ⟨levels, before, 0, head, none⟩ ::
      if enter (.routine 0) then sitesFrom (⟨.routine 0, before⟩ :: levels) [] body else []
  | .classLike _ name members => memberSites levels before name 0 members
  | .compound kind body =>
    if enter (.compound kind) then sitesFrom (⟨.compound kind, before⟩ :: levels) [] body else []
  | .other => []
termination_by structural s => s

/-- The sites of the statements behind `before`, within the bodies that are entered. -/
def sitesFrom (levels : List Level) (before : List Statement) : List Statement → List Site
  | [] => []
  | s :: rest => s.sites levels before ++ sitesFrom levels (before ++ [s]) rest
termination_by structural rest => rest

end

/-- The sites in a body, if it is entered. -/
def bodySites (levels : List Level) (before : List Statement) (opener : Opener)
    (body : List Statement) : List Site :=
  if enter opener then sitesFrom enter (⟨opener, before⟩ :: levels) [] body else []

end Walk

variable {enter : Opener → Bool} {program : List Statement} {levels : List Level}
  {before : List Statement} {opener : Opener} {body : List Statement} {site : Site}
  {className : String} {members : List Member} {i : Nat}

/-- A list of statements may be walked through in two goes. -/
theorem sitesFrom_append (levels : List Level) (before first rest : List Statement) :
    sitesFrom enter levels before (first ++ rest) =
      sitesFrom enter levels before first ++ sitesFrom enter levels (before ++ first) rest := by
  induction first generalizing before with
  | nil => rw [List.append_nil, sitesFrom, List.nil_append, List.nil_append]
  | cons s first ih =>
    rw [List.cons_append, sitesFrom, sitesFrom, ih, List.append_assoc, List.append_assoc,
      List.singleton_append]

/-- The sites in a body are listed if it is entered. -/
theorem mem_bodySites_iff : site ∈ bodySites enter levels before opener body ↔
    enter opener = true ∧ site ∈ sitesFrom enter (⟨opener, before⟩ :: levels) [] body := by
  rw [bodySites]
  split
  · next henter => exact (and_iff_right henter).symm
  · next henter => exact iff_of_false List.not_mem_nil fun h => henter h.1

/-- The sites of members are those of each one at its place. -/
theorem mem_memberSites_iff : site ∈ memberSites enter levels before className i members ↔
    ∃ (k : Nat) (member : Member), members[k]? = some member ∧
      site ∈ member.sites enter levels before className (i + k) := by
  induction members generalizing i with
  | nil => simp [memberSites]
  | cons member rest ih =>
    rw [memberSites, List.mem_append, ih]
    constructor
    · rintro (h | ⟨k, member, hmember, h⟩)
      · exact ⟨0, member, rfl, h⟩
      · exact ⟨k + 1, member, hmember, by rwa [Nat.add_assoc, Nat.add_comm 1 k] at h⟩
    · rintro ⟨k, member, hmember, h⟩
      cases k with
      | zero =>
        obtain rfl := Option.some.inj hmember
        exact .inl h
      | succ k => exact .inr ⟨k, member, hmember, by rwa [Nat.add_assoc, Nat.add_comm 1 k]⟩

/-! ## Every site within entered bodies is listed, and no other -/

/-- What a statement declares is among its sites. -/
theorem Statement.Declares.mem_sites {s : Statement} {head : RoutineHead}
    {className : Option String} (h : s.Declares i head className) (levels : List Level)
    (before : List Statement) :
    ⟨levels, before, i, head, className⟩ ∈ s.sites enter levels before := by
  cases h with
  | function => exact List.mem_cons_self
  | method h =>
    refine mem_memberSites_iff.mpr ⟨i, _, h, ?_⟩
    rw [Nat.zero_add]
    exact List.mem_cons_self

/-- The sites in a body are among those of its statement. -/
theorem Statement.Opens.bodySites_subset {s : Statement} (h : s.Opens opener body)
    (levels : List Level) (before : List Statement) :
    ∀ site ∈ bodySites enter levels before opener body, site ∈ s.sites enter levels before := by
  intro site hsite
  cases h with
  | space => exact hsite
  | block => exact hsite
  | compound => exact hsite
  | function => exact List.mem_cons_of_mem _ hsite
  | method h =>
    refine mem_memberSites_iff.mpr ⟨_, _, h, ?_⟩
    rw [Nat.zero_add]
    exact List.mem_cons_of_mem _ hsite

/-- The sites of a statement are among those of its list. -/
theorem mem_sitesFrom_of_split {s : Statement} {after : List Statement}
    (h : site ∈ s.sites enter levels before) :
    site ∈ sitesFrom enter levels [] (before ++ s :: after) := by
  rw [sitesFrom_append, sitesFrom, List.nil_append]
  exact List.mem_append_right _ (List.mem_append_left _ h)

/-- The walk comes to every statement within entered bodies. -/
theorem Stands.sites_subset {s : Statement} (h : Stands program levels before s)
    (henter : ∀ level ∈ levels, enter level.opener = true) :
    ∀ site ∈ s.sites enter levels before, site ∈ sitesFrom enter [] [] program := by
  induction h with
  | outer h =>
    subst h
    exact fun site hsite => mem_sitesFrom_of_split hsite
  | inner hholder hopens h ih =>
    subst h
    obtain ⟨hopener, hlevels⟩ := List.forall_mem_cons.mp henter
    intro site hsite
    refine ih hlevels site (hopens.bodySites_subset _ _ site ?_)
    exact mem_bodySites_iff.mpr ⟨hopener, mem_sitesFrom_of_split hsite⟩

/-- What is listed for a body is declared in it. -/
theorem in_of_mem_bodySites {s : Statement} (hstands : Stands program levels before s)
    (hopens : s.Opens opener body) (henter : ∀ level ∈ levels, enter level.opener = true)
    (hbody : (∀ level ∈ ⟨opener, before⟩ :: levels, enter level.opener = true) →
      (∀ front t after, [] ++ body = front ++ t :: after →
        Stands program (⟨opener, before⟩ :: levels) front t) →
      site ∈ sitesFrom enter (⟨opener, before⟩ :: levels) [] body →
        site.In program ∧ site.Within enter)
    (h : site ∈ bodySites enter levels before opener body) :
    site.In program ∧ site.Within enter := by
  obtain ⟨hopener, h⟩ := mem_bodySites_iff.mp h
  refine hbody (List.forall_mem_cons.mpr ⟨hopener, henter⟩) ?_ h
  exact fun _ _ _ heq => .inner hstands hopens heq

mutual

/-- Everything that is listed for a member is declared in the program, within entered bodies. -/
theorem Member.in_of_mem_sites {levels : List Level} {before : List Statement}
    {kind : ClassKind} {className : String} {rest : List Member}
    (henter : ∀ level ∈ levels, enter level.opener = true) (passed : List Member) :
    ∀ member : Member, Stands program levels before
        (.classLike kind className (passed ++ member :: rest)) →
      site ∈ member.sites enter levels before className passed.length →
        site.In program ∧ site.Within enter
  | .method head body, hstands, h => by
    have hmember : (passed ++ .method head body :: rest)[passed.length]? =
        some (.method head body) := by simp
    rcases List.mem_cons.mp h with rfl | h
    · exact ⟨⟨_, hstands, .method hmember⟩, henter⟩
    · refine in_of_mem_bodySites hstands (.method hmember) henter (fun henter hbody h => ?_) h
      exact in_of_mem_sitesFrom henter body hbody h
  | .other, _, h => absurd h List.not_mem_nil
termination_by structural member => member

/-- Everything that is listed for the members of a class is declared in the program, within entered
bodies. -/
theorem in_of_mem_memberSites {levels : List Level} {before : List Statement}
    {kind : ClassKind} {className : String}
    (henter : ∀ level ∈ levels, enter level.opener = true) (passed : List Member) :
    ∀ members : List Member,
      Stands program levels before (.classLike kind className (passed ++ members)) →
      site ∈ memberSites enter levels before className passed.length members →
        site.In program ∧ site.Within enter
  | [], _, h => absurd h List.not_mem_nil
  | member :: rest, hstands, h => by
    rw [memberSites] at h
    rcases List.mem_append.mp h with h | h
    · exact member.in_of_mem_sites henter passed hstands h
    · -- The class is the same, with one more of its members passed.
      have hstands : Stands program levels before
          (.classLike kind className ((passed ++ [member]) ++ rest)) := by
        rwa [List.append_assoc, List.singleton_append]
      refine in_of_mem_memberSites henter (passed ++ [member]) rest hstands ?_
      rwa [List.length_append, List.length_singleton]
termination_by structural members => members

/-- Everything that is listed for a statement is declared in it. -/
theorem Statement.in_of_mem_sites {levels : List Level} {before : List Statement}
    (henter : ∀ level ∈ levels, enter level.opener = true) : ∀ s : Statement,
    Stands program levels before s → site ∈ s.sites enter levels before →
      site.In program ∧ site.Within enter
  | .imports _, _, h => absurd h List.not_mem_nil
  | .space _ body, hstands, h =>
    in_of_mem_bodySites hstands .space henter
      (fun henter hbody h => in_of_mem_sitesFrom henter body hbody h) h
  | .block body, hstands, h =>
    in_of_mem_bodySites hstands .block henter
      (fun henter hbody h => in_of_mem_sitesFrom henter body hbody h) h
  | .function _ body, hstands, h => by
    rcases List.mem_cons.mp h with rfl | h
    · exact ⟨⟨_, hstands, .function⟩, henter⟩
    · refine in_of_mem_bodySites hstands .function henter (fun henter hbody h => ?_) h
      exact in_of_mem_sitesFrom henter body hbody h
  | .classLike _ _ members, hstands, h =>
    in_of_mem_memberSites henter [] members hstands h
  | .compound _ body, hstands, h =>
    in_of_mem_bodySites hstands .compound henter
      (fun henter hbody h => in_of_mem_sitesFrom henter body hbody h) h
  | .other, _, h => absurd h List.not_mem_nil
termination_by structural s => s

/-- Everything that is listed for statements of one list is declared in the program, within entered
bodies. -/
theorem in_of_mem_sitesFrom {levels : List Level} {before : List Statement}
    (henter : ∀ level ∈ levels, enter level.opener = true) : ∀ rest : List Statement,
    (∀ front s after, before ++ rest = front ++ s :: after → Stands program levels front s) →
      site ∈ sitesFrom enter levels before rest → site.In program ∧ site.Within enter
  | [], _, h => absurd h List.not_mem_nil
  | s :: rest, hbody, h => by
    rw [sitesFrom] at h
    rcases List.mem_append.mp h with h | h
    · exact s.in_of_mem_sites henter (hbody before s rest rfl) h
    · -- The list is the same, with one more of its statements in front.
      refine in_of_mem_sitesFrom henter rest (fun front t after heq => ?_) h
      exact hbody front t after (by rw [← heq, List.append_assoc, List.singleton_append])
termination_by structural rest => rest

end

/-- The walk lists the sites of the program that are in no body but the ones that are entered. -/
theorem mem_sitesFrom_iff :
    site ∈ sitesFrom enter [] [] program ↔ site.In program ∧ site.Within enter := by
  constructor
  · refine in_of_mem_sitesFrom (fun level hlevel => absurd hlevel List.not_mem_nil) program ?_
    exact fun front s after heq => .outer heq
  · rintro ⟨⟨s, hstands, hdeclares⟩, henter⟩
    exact hstands.sites_subset henter site (hdeclares.mem_sites _ _)

/-! ## The order of the sites -/

/-- A level adds the number of its statement and the place of the body in that statement. -/
theorem placeOf_cons (level : Level) (levels : List Level) :
    placeOf (level :: levels) = placeOf levels ++ [level.before.length, level.opener.member] := by
  rw [placeOf, placeOf, List.reverse_cons, List.flatMap_append, List.flatMap_singleton]

/-- The sites are listed in order, and their places start with `start`. -/
structure ListedUnder (start : List Nat) (sites : List Site) : Prop where
  place : ∀ site ∈ sites, start <+: site.place
  ordered : sites.Pairwise (·.place < ·.place)

/-- The sites are listed in order, and their places go on behind `start` with a step from `i` on. -/
structure ListedFrom (start : List Nat) (i : Nat) (sites : List Site) : Prop where
  place : ∀ site ∈ sites, ∃ j p, i ≤ j ∧ site.place = start ++ j :: p
  ordered : sites.Pairwise (·.place < ·.place)

variable {start : List Nat} {sites rest : List Site}

/-- An empty list is in order. -/
theorem ListedUnder.nil (start : List Nat) : ListedUnder start [] :=
  ⟨List.forall_mem_nil _, .nil⟩

theorem ListedFrom.nil (start : List Nat) (i : Nat) : ListedFrom start i [] :=
  ⟨List.forall_mem_nil _, .nil⟩

/-- Places that start with a longer path start with a shorter one too. -/
theorem ListedUnder.mono {more : List Nat} (h : ListedUnder more sites) (hstart : start <+: more) :
    ListedUnder start sites :=
  ⟨fun site hsite => hstart.trans (h.place site hsite), h.ordered⟩

/-- Places that go on behind a path start with it. -/
theorem ListedFrom.under (h : ListedFrom start i sites) : ListedUnder start sites :=
  ⟨fun site hsite => by
    obtain ⟨j, p, -, hplace⟩ := h.place site hsite
    exact hplace ▸ List.prefix_append .., h.ordered⟩

/-- The sites in a body stand behind its routine. -/
theorem ListedFrom.cons (h : ListedFrom start i sites) (hsite : site.place = start) :
    ListedUnder start (site :: sites) := by
  refine ⟨List.forall_mem_cons.mpr ⟨hsite ▸ List.prefix_rfl, h.under.place⟩,
    List.pairwise_cons.mpr ⟨fun other hother => ?_, h.ordered⟩⟩
  obtain ⟨j, p, -, hplace⟩ := h.place other hother
  calc site.place = start ++ [] := by rw [hsite, List.append_nil]
    _ < start ++ j :: p := List.append_left_lt (List.nil_lt_cons j p)
    _ = other.place := hplace.symm

/-- Sites at one step are listed in front of those at the steps behind it. -/
theorem ListedUnder.append (h : ListedUnder (start ++ [i]) sites)
    (hrest : ListedFrom start (i + 1) rest) : ListedFrom start i (sites ++ rest) := by
  have hplace (site : Site) (hsite : site ∈ sites) : ∃ p, site.place = start ++ i :: p := by
    obtain ⟨p, hplace⟩ := h.place site hsite
    exact ⟨p, by rw [← hplace, List.append_assoc, List.singleton_append]⟩
  refine ⟨fun site hsite => ?_, List.pairwise_append.mpr
    ⟨h.ordered, hrest.ordered, fun site hsite other hother => ?_⟩⟩
  · rcases List.mem_append.mp hsite with hsite | hsite
    · obtain ⟨p, hsite⟩ := hplace site hsite
      exact ⟨i, p, Nat.le_refl i, hsite⟩
    · obtain ⟨j, p, hj, hsite⟩ := hrest.place site hsite
      exact ⟨j, p, by omega, hsite⟩
  · obtain ⟨p, hsite⟩ := hplace site hsite
    obtain ⟨j, q, hj, hother⟩ := hrest.place other hother
    rw [hsite, hother]
    exact List.append_left_lt (List.cons_lt_cons_iff.mpr (.inl hj))

/-- The sites in the body of a routine. -/
theorem ListedFrom.routine
    (h : ListedFrom (placeOf (⟨opener, before⟩ :: levels)) 0
      (sitesFrom enter (⟨opener, before⟩ :: levels) [] body)) :
    ListedFrom (placeOf levels ++ [before.length, opener.member]) 0
      (bodySites enter levels before opener body) := by
  rw [placeOf_cons] at h
  rw [bodySites]
  split
  · exact h
  · exact .nil _ _

/-- The place of a statement is in front of the places of its members. -/
theorem prefix_place (levels : List Level) (before : List Statement) (i : Nat) :
    placeOf levels ++ [before.length] <+: placeOf levels ++ [before.length, i] :=
  ⟨[i], List.append_assoc ..⟩

/-- The sites in the body of a statement are at its place. -/
theorem ListedFrom.statement
    (h : ListedFrom (placeOf (⟨opener, before⟩ :: levels)) 0
      (sitesFrom enter (⟨opener, before⟩ :: levels) [] body)) :
    ListedUnder (placeOf levels ++ [before.length]) (bodySites enter levels before opener body) :=
  h.routine.under.mono (prefix_place levels before opener.member)

mutual

/-- The sites of a member are listed in order, under its place. -/
theorem Member.listedUnder_sites (levels : List Level) (before : List Statement)
    (className : String) (i : Nat) : ∀ member : Member,
    ListedUnder (placeOf levels ++ [before.length, i])
      (member.sites enter levels before className i)
  | .method _ body =>
    (listedFrom_sitesFrom (⟨.routine i, before⟩ :: levels) [] body).routine.cons rfl
  | .other => .nil _
termination_by structural member => member

/-- The sites of members are listed in order, one member after the other. -/
theorem listedFrom_memberSites (levels : List Level) (before : List Statement)
    (className : String) (i : Nat) : ∀ members : List Member,
    ListedFrom (placeOf levels ++ [before.length]) i
      (memberSites enter levels before className i members)
  | [] => .nil _ _
  | member :: rest => by
    have hmember : ListedUnder (placeOf levels ++ [before.length] ++ [i])
        (member.sites enter levels before className i) := by
      rw [List.append_assoc]
      exact member.listedUnder_sites levels before className i
    exact hmember.append (listedFrom_memberSites levels before className (i + 1) rest)
termination_by structural members => members

/-- The sites of a statement are listed in order, under its place. -/
theorem Statement.listedUnder_sites (levels : List Level) (before : List Statement) :
    ∀ s : Statement,
    ListedUnder (placeOf levels ++ [before.length]) (s.sites enter levels before)
  | .imports _ => .nil _
  | .space name body => (listedFrom_sitesFrom (⟨.space name, before⟩ :: levels) [] body).statement
  | .block body => (listedFrom_sitesFrom (⟨.block, before⟩ :: levels) [] body).statement
  | .function _ body =>
    ((listedFrom_sitesFrom (⟨.routine 0, before⟩ :: levels) [] body).routine.cons rfl).mono
      (prefix_place levels before 0)
  | .classLike _ name members => (listedFrom_memberSites levels before name 0 members).under
  | .compound kind body =>
    (listedFrom_sitesFrom (⟨.compound kind, before⟩ :: levels) [] body).statement
  | .other => .nil _
termination_by structural s => s

/-- The sites of statements are listed in order, one statement after the other. -/
theorem listedFrom_sitesFrom (levels : List Level) (before : List Statement) :
    ∀ rest : List Statement,
    ListedFrom (placeOf levels) before.length (sitesFrom enter levels before rest)
  | [] => .nil _ _
  | s :: rest => by
    have hrest : ListedFrom (placeOf levels) (before ++ [s]).length
        (sitesFrom enter levels (before ++ [s]) rest) :=
      listedFrom_sitesFrom levels (before ++ [s]) rest
    rw [List.length_append, List.length_singleton] at hrest
    exact (s.listedUnder_sites levels before).append hrest
termination_by structural rest => rest

end

/-- The sites are listed in the order of the text, each once. -/
theorem pairwise_sitesFrom (enter : Opener → Bool) (program : List Statement) :
    (sitesFrom enter [] [] program).Pairwise (·.place < ·.place) :=
  (listedFrom_sitesFrom [] [] program).ordered

end PhpTypes.Php
