import CachedWorkflow.Proofs.Text.Names
import Mathlib.Data.Fintype.Card
import Mathlib.Data.Fintype.EquivFin
import Mathlib.Data.Fintype.Sets
import Mathlib.Data.List.Nodup
import Mathlib.Data.List.Pairwise
import Mathlib.Logic.Relation

/-!
# Proofs: splicing needs graphs

What the expansion of call sites does to needs, told of graphs of names alone: the jobs of a child
stand in the place of the call site, those that need nothing get the needs of the call site, and who
needs the call site needs all of them. The outcome refines the graph of the document
(`reaches_owners_iff`) and contains the graph of every child (`reaches_inner_iff`). Every path through
a child ends at a job that needs nothing, because the child has finitely many jobs and no cycle.
-/

namespace CachedWorkflow

open Relation

/-- The jobs of a document, each with the jobs that it needs. -/
abbrev Wiring := List (Text × List Text)

namespace Wiring

/-- The jobs. -/
def names (w : Wiring) : List Text := w.map Prod.fst

/-- One job needs another. -/
def Needs (w : Wiring) (a b : Text) : Prop := ∃ needed, (a, needed) ∈ w ∧ b ∈ needed

/-- One job reaches another through needs. -/
def Reaches (w : Wiring) : Text → Text → Prop := TransGen w.Needs

/-- The names are distinct job names, jobs need jobs of the same document, and no job needs itself
through others. -/
structure Sound (w : Wiring) : Prop where
  nodup : w.names.Nodup
  isName : ∀ name ∈ w.names, IsName name
  closed : ∀ a b, w.Needs a b → b ∈ w.names
  acyclic : ∀ a, ¬ w.Reaches a a

variable {w : Wiring}

theorem mem_names {name : Text} : name ∈ w.names ↔ ∃ needed, (name, needed) ∈ w := by
  unfold names
  rw [List.mem_map]
  constructor
  · rintro ⟨⟨n, needed⟩, hmem, rfl⟩
    exact ⟨needed, hmem⟩
  · rintro ⟨needed, hmem⟩
    exact ⟨(name, needed), hmem, rfl⟩

/-- A job is listed with its needs once. -/
theorem Sound.eq_of_mem (h : w.Sound) {name : Text} {needed needed' : List Text}
    (hmem : (name, needed) ∈ w) (hmem' : (name, needed') ∈ w) : needed = needed' := by
  have hinj := List.inj_on_of_nodup_map h.nodup hmem hmem' rfl
  exact (Prod.mk.inj hinj).2

/-- A graph in which needs go to jobs of a lower rank is sound. -/
theorem Sound.of_rank (rank : Text → Nat) (hnodup : w.names.Nodup)
    (hname : ∀ name ∈ w.names, IsName name)
    (hneeds : ∀ node ∈ w, ∀ b ∈ node.2, b ∈ w.names ∧ rank b < rank node.1) : w.Sound where
  nodup := hnodup
  isName := hname
  closed := by
    rintro a b ⟨needed, hmem, hb⟩
    exact (hneeds (a, needed) hmem b hb).1
  acyclic := by
    suffices ∀ a b, w.Reaches a b → rank b < rank a from fun a h => lt_irrefl _ (this a a h)
    intro a b h
    induction h with
    | single hstep =>
      obtain ⟨needed, hmem, hb⟩ := hstep
      exact (hneeds (a, needed) hmem _ hb).2
    | @tail mid b _ hstep ih =>
      obtain ⟨needed, hmem, hb⟩ := hstep
      exact lt_trans (hneeds (mid, needed) hmem b hb).2 ih

/-- From every job some job is reached that needs nothing. -/
theorem Sound.exists_root (h : w.Sound) {a : Text} (ha : a ∈ w.names) :
    ∃ root ∈ w.names, ReflTransGen w.Needs a root ∧ ∀ b, ¬ w.Needs root b := by
  have htrans : IsTrans {name // name ∈ w.names} fun x y => w.Reaches y.1 x.1 :=
    ⟨fun _ _ _ hxy hyz => TransGen.trans hyz hxy⟩
  have hirrefl : Std.Irrefl fun x y : {name // name ∈ w.names} => w.Reaches y.1 x.1 :=
    ⟨fun x => h.acyclic x.1⟩
  have hwf := Finite.wellFounded_of_trans_of_irrefl
    fun x y : {name // name ∈ w.names} => w.Reaches y.1 x.1
  suffices ∀ x : {name // name ∈ w.names},
      ∃ root ∈ w.names, ReflTransGen w.Needs x.1 root ∧ ∀ b, ¬ w.Needs root b from this ⟨a, ha⟩
  intro x
  induction x using hwf.induction with
  | _ x ih =>
    by_cases hroot : ∃ b, w.Needs x.1 b
    · obtain ⟨b, hb⟩ := hroot
      obtain ⟨root, hmem, hreach, hnone⟩ := ih ⟨b, h.closed x.1 b hb⟩ (TransGen.single hb)
      exact ⟨root, hmem, ReflTransGen.head hb hreach, hnone⟩
    · exact ⟨x.1, x.2, ReflTransGen.refl, not_exists.mp hroot⟩

end Wiring

/-- What is put together when call sites are expanded: the graph of the document, the graphs of the
children of its call sites, and the prefix that the jobs of each child get. -/
structure Splicing where
  outer : Wiring
  child : Text → Option Wiring
  lead : Text → Text

/-- Where a job of an expanded document comes from. -/
inductive Origin where
  /-- From the document itself. -/
  | own (job : Text)
  /-- From the child of a call site. -/
  | spliced (site job : Text)

/-- The job of the document that a job of the expanded document stands for. -/
def Origin.owner : Origin → Text
  | .own job => job
  | .spliced site _ => site

namespace Splicing

/-- The jobs that a job of the document turns into. -/
def spliced (s : Splicing) (job : Text) : List Text :=
  match s.child job with
  | none => [job]
  | some w => w.names.map (s.lead job ++ ·)

/-- The part of the outcome that a job of the document turns into. -/
def place (s : Splicing) (entry : Text × List Text) : Wiring :=
  let needed := entry.2.flatMap s.spliced
  match s.child entry.1 with
  | none => [(entry.1, needed)]
  | some w => w.map fun inner =>
    (s.lead entry.1 ++ inner.1,
      if inner.2.isEmpty then needed else inner.2.map (s.lead entry.1 ++ ·))

/-- The graph of the expanded document. -/
def result (s : Splicing) : Wiring := s.outer.flatMap s.place

/-- The parts are sound, no child is empty, and the prefixes keep all names apart. -/
structure Sound (s : Splicing) : Prop where
  outer : s.outer.Sound
  child : ∀ site ∈ s.outer.names, ∀ w, s.child site = some w → w.Sound ∧ w ≠ []
  lead : ∀ site ∈ s.outer.names, ∀ c ∈ s.lead site, isJobIdChar c = true
  nodup : (s.outer.names.flatMap s.spliced).Nodup

/-- The jobs of the expanded document, by where they come from. -/
def IsOrigin (s : Splicing) : Origin → Prop
  | .own job => job ∈ s.outer.names ∧ s.child job = none
  | .spliced site job => site ∈ s.outer.names ∧ ∃ w, s.child site = some w ∧ job ∈ w.names

/-- The name of a job in the expanded document. -/
def nameOf (s : Splicing) : Origin → Text
  | .own job => job
  | .spliced site job => s.lead site ++ job

variable {s : Splicing} {x y : Origin}

/-! ## Names -/

theorem spliced_own {job : Text} (h : s.child job = none) : s.spliced job = [job] := by
  unfold spliced
  rw [h]

theorem spliced_site {job : Text} {w : Wiring} (h : s.child job = some w) :
    s.spliced job = w.names.map (s.lead job ++ ·) := by
  unfold spliced
  rw [h]

theorem IsOrigin.owner_mem (h : s.IsOrigin x) : x.owner ∈ s.outer.names := by
  cases x with
  | own job => exact h.1
  | spliced site job => exact h.1

/-- A job is among those that its owner turns into. -/
theorem IsOrigin.nameOf_mem (h : s.IsOrigin x) : s.nameOf x ∈ s.spliced x.owner := by
  cases x with
  | own job =>
    obtain ⟨-, hchild⟩ := h
    rw [Origin.owner, spliced_own hchild]
    exact List.mem_singleton_self job
  | spliced site job =>
    obtain ⟨-, w, hchild, hjob⟩ := h
    rw [Origin.owner, spliced_site hchild]
    exact List.mem_map_of_mem hjob

theorem exists_origin_of_mem_spliced {job name : Text} (hjob : job ∈ s.outer.names)
    (h : name ∈ s.spliced job) : ∃ x, s.IsOrigin x ∧ x.owner = job ∧ s.nameOf x = name := by
  cases hchild : s.child job with
  | none =>
    rw [spliced_own hchild] at h
    exact ⟨.own job, ⟨hjob, hchild⟩, rfl, (List.mem_singleton.mp h).symm⟩
  | some w =>
    rw [spliced_site hchild] at h
    obtain ⟨inner, hinner, rfl⟩ := List.mem_map.mp h
    exact ⟨.spliced job inner, ⟨hjob, w, hchild, hinner⟩, rfl, rfl⟩

/-- Two jobs of the document turn into different jobs. -/
theorem Sound.eq_of_mem_spliced (hs : s.Sound) {a b name : Text} (ha : a ∈ s.outer.names)
    (hb : b ∈ s.outer.names) (hna : name ∈ s.spliced a) (hnb : name ∈ s.spliced b) : a = b := by
  by_contra hne
  have hsymm : Std.Symm (Function.onFun List.Disjoint s.spliced) := ⟨fun _ _ h => h.symm⟩
  have hdisjoint := (List.nodup_flatMap.mp hs.nodup).2
  exact hdisjoint.forall ha hb hne hna hnb

/-- Jobs of the expanded document are told apart by their names. -/
theorem Sound.eq_of_nameOf_eq (hs : s.Sound) (hx : s.IsOrigin x) (hy : s.IsOrigin y)
    (h : s.nameOf x = s.nameOf y) : x = y := by
  have howner : x.owner = y.owner := hs.eq_of_mem_spliced hx.owner_mem hy.owner_mem hx.nameOf_mem
    (h ▸ hy.nameOf_mem)
  cases x with
  | own a =>
    cases y with
    | own b => exact congrArg Origin.own howner
    | spliced site b =>
      obtain ⟨-, hnone⟩ := hx
      obtain ⟨-, w, hsome, -⟩ := hy
      rw [show a = site from howner, hsome] at hnone
      cases hnone
  | spliced site a =>
    cases y with
    | own b =>
      obtain ⟨-, w, hsome, -⟩ := hx
      obtain ⟨-, hnone⟩ := hy
      rw [show site = b from howner, hnone] at hsome
      cases hsome
    | spliced site' b =>
      obtain rfl : site = site' := howner
      exact congrArg (Origin.spliced site) (List.append_cancel_left h)

theorem place_own {job : Text} {needed : List Text} (h : s.child job = none) :
    s.place (job, needed) = [(job, needed.flatMap s.spliced)] := by
  unfold place
  rw [h]

theorem place_site {job : Text} {needed : List Text} {w : Wiring} (h : s.child job = some w) :
    s.place (job, needed) = w.map fun inner => (s.lead job ++ inner.1,
      if inner.2.isEmpty then needed.flatMap s.spliced else inner.2.map (s.lead job ++ ·)) := by
  unfold place
  rw [h]

theorem names_place (s : Splicing) (entry : Text × List Text) :
    (s.place entry).names = s.spliced entry.1 := by
  obtain ⟨job, needed⟩ := entry
  cases hchild : s.child job with
  | none =>
    rw [place_own hchild, spliced_own hchild]
    rfl
  | some w =>
    rw [place_site hchild, spliced_site hchild, Wiring.names, Wiring.names, List.map_map, List.map_map]
    rfl

/-- Every job of the document is replaced in its place. -/
theorem names_result (s : Splicing) : s.result.names = s.outer.names.flatMap s.spliced := by
  unfold result
  rw [Wiring.names, List.map_flatMap, Wiring.names, List.flatMap_map]
  exact List.flatMap_congr fun entry _ => s.names_place entry

theorem mem_names_result {name : Text} :
    name ∈ s.result.names ↔ ∃ x, s.IsOrigin x ∧ s.nameOf x = name := by
  rw [names_result, List.mem_flatMap]
  constructor
  · rintro ⟨job, hjob, hname⟩
    obtain ⟨x, hx, -, rfl⟩ := exists_origin_of_mem_spliced hjob hname
    exact ⟨x, hx, rfl⟩
  · rintro ⟨x, hx, rfl⟩
    exact ⟨x.owner, hx.owner_mem, hx.nameOf_mem⟩

/-! ## Needs -/

/-- Where a path may leave the jobs of one owner: at a job of the document itself, or at a job of a
child that needs nothing in its child. -/
def IsExit (s : Splicing) : Origin → Prop
  | .own _ => True
  | .spliced site job => ∀ w, s.child site = some w → ∀ b, ¬ w.Needs job b

/-- What the jobs of the expanded document need: inside a child what they need there, and from an exit
all that their owner needs. -/
inductive Edge (s : Splicing) : Origin → Origin → Prop where
  | inner {site a b : Text} {w : Wiring} (child : s.child site = some w) (needs : w.Needs a b) :
      Edge s (.spliced site a) (.spliced site b)
  | outer {x y : Origin} (exit : s.IsExit x) (needs : s.outer.Needs x.owner y.owner) : Edge s x y

theorem Sound.exists_origin_of_needs (hs : s.Sound) {job : Text} {needed : List Text}
    (hmem : (job, needed) ∈ s.outer) {name : Text} (hname : name ∈ needed.flatMap s.spliced) :
    ∃ y, s.IsOrigin y ∧ s.nameOf y = name ∧ s.outer.Needs job y.owner := by
  obtain ⟨other, hother, hname⟩ := List.mem_flatMap.mp hname
  have hneeds : s.outer.Needs job other := ⟨needed, hmem, hother⟩
  obtain ⟨y, hy, rfl, hy'⟩ := exists_origin_of_mem_spliced (hs.outer.closed job other hneeds) hname
  exact ⟨y, hy, hy', hneeds⟩

/-- Every need of the expanded document is such an edge. -/
theorem Sound.exists_edge (hs : s.Sound) {a b : Text} (h : s.result.Needs a b) :
    ∃ x y, s.IsOrigin x ∧ s.IsOrigin y ∧ s.nameOf x = a ∧ s.nameOf y = b ∧ s.Edge x y := by
  obtain ⟨needed, hentry, hb⟩ := h
  obtain ⟨⟨job, outerNeeded⟩, houter, hplace⟩ := List.mem_flatMap.mp hentry
  have hjob : job ∈ s.outer.names := Wiring.mem_names.mpr ⟨outerNeeded, houter⟩
  cases hchild : s.child job with
  | none =>
    rw [place_own hchild, List.mem_singleton, Prod.mk.injEq] at hplace
    obtain ⟨rfl, rfl⟩ := hplace
    obtain ⟨y, hy, hname, hneeds⟩ := hs.exists_origin_of_needs houter hb
    exact ⟨.own a, y, ⟨hjob, hchild⟩, hy, rfl, hname, .outer trivial hneeds⟩
  | some w =>
    rw [place_site hchild] at hplace
    obtain ⟨⟨inner, innerNeeded⟩, hinner, heq⟩ := List.mem_map.mp hplace
    obtain ⟨rfl, rfl⟩ := Prod.mk.inj heq
    have hsound := (hs.child job hjob w hchild).1
    have hx : s.IsOrigin (.spliced job inner) :=
      ⟨hjob, w, hchild, Wiring.mem_names.mpr ⟨innerNeeded, hinner⟩⟩
    by_cases hempty : innerNeeded.isEmpty = true
    · rw [if_pos hempty] at hb
      obtain ⟨y, hy, hname, hneeds⟩ := hs.exists_origin_of_needs houter hb
      refine ⟨.spliced job inner, y, hx, hy, rfl, hname, .outer ?_ hneeds⟩
      -- a job of the child is listed once, and there without needs
      rintro w' hw' other ⟨otherNeeded, hother, hmem⟩
      obtain rfl : w = w' := Option.some.inj (hchild.symm.trans hw')
      rw [hsound.eq_of_mem hother hinner, List.isEmpty_iff.mp hempty] at hmem
      cases hmem
    · rw [if_neg hempty] at hb
      obtain ⟨other, hother, rfl⟩ := List.mem_map.mp hb
      have hneeds : w.Needs inner other := ⟨innerNeeded, hinner, hother⟩
      exact ⟨.spliced job inner, .spliced job other, hx,
        ⟨hjob, w, hchild, hsound.closed inner other hneeds⟩, rfl, rfl, .inner hchild hneeds⟩

/-- Every such edge is a need of the expanded document. -/
theorem needs_of_edge (hx : s.IsOrigin x) (hy : s.IsOrigin y) (h : s.Edge x y) :
    s.result.Needs (s.nameOf x) (s.nameOf y) := by
  cases h with
  | @inner site a b w hchild hneeds =>
    obtain ⟨needed, hentry, hb⟩ := hneeds
    obtain ⟨outerNeeded, houter⟩ := Wiring.mem_names.mp hx.1
    have hnonempty : ¬ needed.isEmpty = true := by
      rw [List.isEmpty_iff]
      exact List.ne_nil_of_mem hb
    refine ⟨needed.map (s.lead site ++ ·), ?_, List.mem_map_of_mem hb⟩
    refine List.mem_flatMap.mpr ⟨(site, outerNeeded), houter, ?_⟩
    rw [place_site hchild]
    exact List.mem_map.mpr ⟨(a, needed), hentry, by rw [if_neg hnonempty]; rfl⟩
  | outer hexit hneeds =>
    obtain ⟨outerNeeded, houter, hmem⟩ := hneeds
    refine ⟨outerNeeded.flatMap s.spliced, ?_, List.mem_flatMap.mpr ⟨y.owner, hmem, hy.nameOf_mem⟩⟩
    refine List.mem_flatMap.mpr ⟨(x.owner, outerNeeded), houter, ?_⟩
    cases x with
    | own job =>
      obtain ⟨-, hchild⟩ := hx
      rw [Origin.owner, place_own hchild]
      exact List.mem_singleton_self _
    | spliced site job =>
      obtain ⟨-, w, hchild, hjob⟩ := hx
      obtain ⟨needed, hentry⟩ := Wiring.mem_names.mp hjob
      have hempty : needed.isEmpty = true := by
        cases needed with
        | nil => rfl
        | cons b rest => exact absurd ⟨b :: rest, hentry, List.mem_cons_self⟩ (hexit w hchild b)
      rw [Origin.owner, place_site hchild]
      exact List.mem_map.mpr ⟨(job, needed), hentry, by rw [if_pos hempty]; rfl⟩

/-! ## Paths -/

/-- A need between two jobs, by where they come from. -/
def Step (s : Splicing) (x y : Origin) : Prop := s.IsOrigin x ∧ s.IsOrigin y ∧ s.Edge x y

/-- The paths of the expanded document are those along the edges. -/
theorem Sound.reaches_nameOf_iff (hs : s.Sound) (hx : s.IsOrigin x) (hy : s.IsOrigin y) :
    s.result.Reaches (s.nameOf x) (s.nameOf y) ↔ TransGen s.Step x y := by
  constructor
  · intro h
    suffices ∀ b, s.result.Reaches (s.nameOf x) b →
        ∃ z, s.IsOrigin z ∧ s.nameOf z = b ∧ TransGen s.Step x z by
      obtain ⟨z, hz, hname, hpath⟩ := this _ h
      rwa [hs.eq_of_nameOf_eq hz hy hname] at hpath
    intro b hb
    induction hb with
    | single hneeds =>
      obtain ⟨x', z, hx', hz, hname, rfl, hedge⟩ := hs.exists_edge hneeds
      obtain rfl := hs.eq_of_nameOf_eq hx' hx hname
      exact ⟨z, hz, rfl, .single ⟨hx', hz, hedge⟩⟩
    | tail _ hneeds ih =>
      obtain ⟨z, hz, rfl, hpath⟩ := ih
      obtain ⟨z', y', hz', hy', hname, rfl, hedge⟩ := hs.exists_edge hneeds
      obtain rfl := hs.eq_of_nameOf_eq hz' hz hname
      exact ⟨y', hy', rfl, hpath.tail ⟨hz', hy', hedge⟩⟩
  · intro h
    exact h.lift s.nameOf fun a b hstep => needs_of_edge hstep.1 hstep.2.1 hstep.2.2

/-- A path stays inside one child, or it is a path of the owners. -/
theorem path_cases (h : TransGen s.Step x y) :
    (∃ site w a b, x = .spliced site a ∧ y = .spliced site b ∧ s.child site = some w ∧
      w.Reaches a b) ∨ s.outer.Reaches x.owner y.owner := by
  induction h with
  | single hstep =>
    obtain ⟨-, -, hedge⟩ := hstep
    cases hedge with
    | inner hchild hneeds => exact .inl ⟨_, _, _, _, rfl, rfl, hchild, .single hneeds⟩
    | outer hexit hneeds => exact .inr (.single hneeds)
  | tail _ hstep ih =>
    obtain ⟨-, -, hedge⟩ := hstep
    cases hedge with
    | inner hchild hneeds =>
      rcases ih with ⟨site, w, a, b, rfl, heq, hchild', hreach⟩ | hreach
      · cases heq
        obtain rfl := Option.some.inj (hchild.symm.trans hchild')
        exact .inl ⟨_, _, _, _, rfl, rfl, hchild, hreach.tail hneeds⟩
      · exact .inr hreach
    | outer hexit hneeds =>
      rcases ih with ⟨site, w, a, b, rfl, rfl, -, -⟩ | hreach
      · exact .inr (.single hneeds)
      · exact .inr (hreach.tail hneeds)

/-- A path of a child is one of the expanded document. -/
theorem Sound.path_inner (hs : s.Sound) {site a b : Text} {w : Wiring} (hsite : site ∈ s.outer.names)
    (hchild : s.child site = some w) (ha : a ∈ w.names) (h : w.Reaches a b) :
    TransGen s.Step (.spliced site a) (.spliced site b) := by
  have hclosed := (hs.child site hsite w hchild).1.closed
  induction h with
  | single hneeds =>
    exact .single ⟨⟨hsite, w, hchild, ha⟩, ⟨hsite, w, hchild, hclosed _ _ hneeds⟩,
      .inner hchild hneeds⟩
  | tail hpath hneeds ih =>
    obtain ⟨-, hlast, -⟩ := (TransGen.tail'_iff.mp ih).choose_spec.2
    exact ih.tail ⟨hlast, ⟨hsite, w, hchild, hclosed _ _ hneeds⟩, .inner hchild hneeds⟩

/-- Every job reaches an exit of its owner. -/
theorem Sound.exists_exit (hs : s.Sound) (hx : s.IsOrigin x) :
    ∃ z, s.IsOrigin z ∧ z.owner = x.owner ∧ s.IsExit z ∧ ReflTransGen s.Step x z := by
  cases x with
  | own job => exact ⟨.own job, hx, rfl, trivial, .refl⟩
  | spliced site job =>
    obtain ⟨hsite, w, hchild, hjob⟩ := hx
    obtain ⟨root, hroot, hreach, hnone⟩ := (hs.child site hsite w hchild).1.exists_root hjob
    refine ⟨.spliced site root, ⟨hsite, w, hchild, hroot⟩, rfl, ?_, ?_⟩
    · intro w' hw'
      obtain rfl := Option.some.inj (hchild.symm.trans hw')
      exact hnone
    · rcases reflTransGen_iff_eq_or_transGen.mp hreach with rfl | hreach
      · exact .refl
      · exact (hs.path_inner hsite hchild hjob hreach).to_reflTransGen

/-- Every job of the document turns into at least one job. -/
theorem Sound.exists_origin (hs : s.Sound) {job : Text} (hjob : job ∈ s.outer.names) :
    ∃ x, s.IsOrigin x ∧ x.owner = job := by
  cases hchild : s.child job with
  | none => exact ⟨.own job, ⟨hjob, hchild⟩, rfl⟩
  | some w =>
    obtain ⟨⟨inner, needed⟩, hmem⟩ := List.exists_mem_of_ne_nil w (hs.child job hjob w hchild).2
    exact ⟨.spliced job inner, ⟨hjob, w, hchild, Wiring.mem_names.mpr ⟨needed, hmem⟩⟩, rfl⟩

/-- A need of an owner is a path between any jobs of the two. -/
theorem Sound.path_of_needs (hs : s.Sound) (hx : s.IsOrigin x) (hy : s.IsOrigin y)
    (h : s.outer.Needs x.owner y.owner) : TransGen s.Step x y := by
  obtain ⟨z, hz, howner, hexit, hpath⟩ := hs.exists_exit hx
  rw [← howner] at h
  exact TransGen.tail' hpath ⟨hz, hy, .outer hexit h⟩

/-- A path of the owners is a path between any jobs of the two. -/
theorem Sound.path_outer (hs : s.Sound) (hx : s.IsOrigin x) (hy : s.IsOrigin y)
    (h : s.outer.Reaches x.owner y.owner) : TransGen s.Step x y := by
  suffices ∀ b, s.outer.Reaches x.owner b → ∀ y, s.IsOrigin y → y.owner = b →
      TransGen s.Step x y from this _ h y hy rfl
  intro b hb
  induction hb with
  | single hneeds =>
    rintro y hy rfl
    exact hs.path_of_needs hx hy hneeds
  | @tail mid b hpath hneeds ih =>
    rintro y hy rfl
    have hmid : mid ∈ s.outer.names := by
      obtain ⟨needed, hmem, -⟩ := hneeds
      exact Wiring.mem_names.mpr ⟨needed, hmem⟩
    obtain ⟨z, hz, rfl⟩ := hs.exists_origin hmid
    exact (ih z hz rfl).trans (hs.path_of_needs hz hy hneeds)

/-! ## Refinement -/

/-- Between jobs of different owners there is a path exactly if there is one between the owners. -/
theorem Sound.reaches_owners_iff (hs : s.Sound) (hx : s.IsOrigin x) (hy : s.IsOrigin y)
    (hne : x.owner ≠ y.owner) :
    s.result.Reaches (s.nameOf x) (s.nameOf y) ↔ s.outer.Reaches x.owner y.owner := by
  rw [hs.reaches_nameOf_iff hx hy]
  constructor
  · intro h
    rcases path_cases h with ⟨site, w, a, b, rfl, rfl, -, -⟩ | h
    · exact absurd rfl hne
    · exact h
  · exact hs.path_outer hx hy

/-- Between jobs of one child there is a path exactly if there is one in the child. -/
theorem Sound.reaches_inner_iff (hs : s.Sound) {site a b : Text} {w : Wiring}
    (hsite : site ∈ s.outer.names) (hchild : s.child site = some w) (ha : a ∈ w.names)
    (hb : b ∈ w.names) :
    s.result.Reaches (s.lead site ++ a) (s.lead site ++ b) ↔ w.Reaches a b := by
  have hx : s.IsOrigin (.spliced site a) := ⟨hsite, w, hchild, ha⟩
  have hy : s.IsOrigin (.spliced site b) := ⟨hsite, w, hchild, hb⟩
  refine (hs.reaches_nameOf_iff hx hy).trans ⟨fun h => ?_, hs.path_inner hsite hchild ha⟩
  rcases path_cases h with ⟨site', w', a', b', hxa, hyb, hchild', hreach⟩ | h
  · cases hxa
    cases hyb
    obtain rfl := Option.some.inj (hchild.symm.trans hchild')
    exact hreach
  · -- a path from the call site to itself
    exact absurd h (hs.outer.acyclic site)

/-- The graph of the expanded document is sound again. -/
theorem Sound.result (hs : s.Sound) : s.result.Sound where
  nodup := by
    rw [names_result]
    exact hs.nodup
  isName := by
    intro name hname
    obtain ⟨x, hx, rfl⟩ := mem_names_result.mp hname
    cases x with
    | own job => exact hs.outer.isName job hx.1
    | spliced site job =>
      obtain ⟨hsite, w, hchild, hjob⟩ := hx
      have hinner := (hs.child site hsite w hchild).1.isName job hjob
      exact isName_append (hs.lead site hsite) hinner
  closed := by
    intro a b h
    obtain ⟨x, y, -, hy, -, rfl, -⟩ := hs.exists_edge h
    exact mem_names_result.mpr ⟨y, hy, rfl⟩
  acyclic := by
    intro a h
    obtain ⟨x, hx, rfl⟩ : ∃ x, s.IsOrigin x ∧ s.nameOf x = a := by
      obtain ⟨b, hneeds, -⟩ := TransGen.head'_iff.mp h
      obtain ⟨x, y, hx, -, hname, -, -⟩ := hs.exists_edge hneeds
      exact ⟨x, hx, hname⟩
    rcases path_cases ((hs.reaches_nameOf_iff hx hx).mp h) with
      ⟨site, w, b, c, rfl, heq, hchild, hreach⟩ | h
    · cases heq
      exact (hs.child site hx.1 w hchild).1.acyclic b hreach
    · exact hs.outer.acyclic x.owner h

end Splicing

end CachedWorkflow
