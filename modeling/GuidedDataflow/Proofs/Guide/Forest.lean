import Mathlib.Logic.Relation
import GuidedDataflow.Proofs.Guide.Ancestry

/-!
Under query identity the provenance of an analysis is a forest. A query is accepted once, for one
parent, and that parent is a query taken off the agenda before or an allocation site that such a
query has found. Sites lie behind assignments and spawned queries beside calls, so no site is
ever accepted, and every path of edges follows the order of acceptance.
-/

namespace GuidedDataflow

open Session

namespace Provenance

variable {g : Provenance}

/-- The edges that lead to the query. -/
def incoming (g : Provenance) (q : Query) : List ProvenanceEdge := g.edges.filter (·.child = q)

/-- Some edge leads from one query to the other. -/
def Joins (g : Provenance) (parent child : Query) : Prop :=
  ∃ e ∈ g.edges, e.parent = parent ∧ e.child = child

theorem incoming_eq_nil {q : Query} : g.incoming q = [] ↔ ∀ e ∈ g.edges, e.child ≠ q := by
  simp [incoming, List.filter_eq_nil_iff]

/-- The edges come in an order in which no query has two of them and none leads out of a query
before one leads in. -/
structure Ordered (g : Provenance) : Prop where
  nodup : (g.edges.map ProvenanceEdge.child).Nodup
  earlier : ∀ before e after, g.edges = before ++ e :: after →
    e.parent ∈ g.edges.map ProvenanceEdge.child → e.parent ∈ before.map ProvenanceEdge.child

namespace Ordered

variable (h : g.Ordered)
include h

theorem incoming_eq {e : ProvenanceEdge} (he : e ∈ g.edges) : g.incoming e.child = [e] := by
  obtain ⟨before, after, hsplit⟩ := List.append_of_mem he
  have hnodup := h.nodup
  rw [hsplit, List.map_append, List.map_cons, List.nodup_append] at hnodup
  obtain ⟨-, hlater, hdisjoint⟩ := hnodup
  have hbefore : before.filter (·.child = e.child) = [] := by
    rw [List.filter_eq_nil_iff]
    intro other hother heq
    exact hdisjoint _ (List.mem_map_of_mem hother) _ List.mem_cons_self (of_decide_eq_true heq)
  have hafter : after.filter (·.child = e.child) = [] := by
    rw [List.filter_eq_nil_iff]
    intro other hother heq
    exact (List.nodup_cons.1 hlater).1 (of_decide_eq_true heq ▸ List.mem_map_of_mem hother)
  rw [incoming, hsplit, List.filter_append, hbefore, List.filter_cons_of_pos (by simp), hafter]
  rfl

/-- Along the edges the queries follow the order of acceptance. -/
theorem idxOf_lt {parent child : Query} (hjoins : g.Joins parent child)
    (hparent : parent ∈ g.edges.map ProvenanceEdge.child) :
    (g.edges.map ProvenanceEdge.child).idxOf parent <
      (g.edges.map ProvenanceEdge.child).idxOf child := by
  obtain ⟨e, he, rfl, rfl⟩ := hjoins
  obtain ⟨before, after, hsplit⟩ := List.append_of_mem he
  have hbefore := h.earlier before e after hsplit hparent
  have hnew : e.child ∉ before.map ProvenanceEdge.child := by
    have hnodup := h.nodup
    rw [hsplit, List.map_append, List.map_cons, List.nodup_append] at hnodup
    exact fun hmem => hnodup.2.2 _ hmem _ List.mem_cons_self rfl
  rw [hsplit, List.map_append, List.idxOf_append_of_mem hbefore, List.idxOf_append_of_notMem hnew]
  exact Nat.lt_add_right _ (List.idxOf_lt_length_of_mem hbefore)

theorem acyclic (q : Query) : ¬ Relation.TransGen g.Joins q q := by
  have hforward : ∀ r, Relation.TransGen g.Joins q r → q ∈ g.edges.map ProvenanceEdge.child →
      (g.edges.map ProvenanceEdge.child).idxOf q < (g.edges.map ProvenanceEdge.child).idxOf r := by
    intro r hpath hq
    induction hpath with
    | single hstep => exact h.idxOf_lt hstep hq
    | @tail middle r hpath hstep ih =>
      obtain ⟨e, he, -, heq⟩ := (Relation.TransGen.tail'_iff.1 hpath).choose_spec.2
      have hmiddle : middle ∈ g.edges.map ProvenanceEdge.child := heq ▸ List.mem_map_of_mem he
      exact ih.trans (h.idxOf_lt hstep hmiddle)
  intro hcycle
  obtain ⟨_, -, e, he, -, heq⟩ := Relation.TransGen.tail'_iff.1 hcycle
  exact Nat.lt_irrefl _ (hforward q hcycle (heq ▸ List.mem_map_of_mem he))

end Ordered

end Provenance

/-- What is asked at a statement is not asked where a value is allocated. -/
theorem Statement.Asks.not_site {p : Program} (hp : p.WellFormed) {id : StmtId} {s : Statement}
    (hs : p.statement? id = some s) {f : ForwardQuery} (h : s.Asks p (.forward f)) (fact : Fact) :
    Flow.allocation? p fact ≠ some f := by
  intro hsite
  obtain ⟨assign, source, hassign, hassigns, -, rfl⟩ := Flow.allocation?_eq_some.1 hsite
  exact h.not_assign hp hs hassign _ _ hassigns

namespace Setup

variable {u : Setup} {initial : Query} {solved : List (Solved Session)} {s : Session}
  {p : Progress}

/-- A solve has spawned the query, which is not the initial one. Under query identity these are
the accepted children, as a key is new exactly where the query is. -/
def Accepts (u : Setup) (initial : Query) (solved : List (Solved Session)) (q : Query) : Prop :=
  q ≠ initial ∧ ∃ sol ∈ solved, ∃ m, u.Matches (.reachability u.program) sol m ∧
    ∃ x, u.Yields m x ∧ x.query = q

/-- The query is an allocation site that some solve has found. -/
def IsSite (u : Setup) (solved : List (Solved Session)) (q : Query) : Prop :=
  ∃ sol ∈ solved, ∃ f, Finds (.reachability u.program) sol f ∧ q = .forward f

/-- One query leads to the other: by an edge, or from a solved backward query to a site. -/
def LeadsTo (u : Setup) (solved : List (Solved Session)) (g : Provenance) (q r : Query) : Prop :=
  g.Joins q r ∨
    ∃ sol ∈ solved, ∃ f, Finds (.reachability u.program) sol f ∧ q = sol.demand.query ∧
      r = .forward f

/-- The provenance is a forest of the accepted children below the initial query and the sites. -/
structure Forest (u : Setup) (initial : Query) (solved : List (Solved Session)) (g : Provenance) :
    Prop where
  child : ∀ q, u.Accepts initial solved q → ∃ e, g.incoming q = [e]
  other : ∀ q ∈ g.queries, ¬ u.Accepts initial solved q → g.incoming q = [] ∧
    (q = initial ∨ (u.IsSite solved q ∧ ∃ e ∈ g.edges, e.parent = q))
  root : g.incoming initial = []
  site : ∀ q, u.IsSite solved q → g.incoming q = []
  acyclic : ∀ q, ¬ Relation.TransGen g.Joins q q
  explained : ∀ e ∈ g.edges, ∃ sol ∈ solved, ∃ m, u.Matches (.reachability u.program) sol m ∧
    m.parent = e.parent ∧ e.trigger ∈ m.table ∧ u.SpawnsAt m.direction e.trigger e.child
  reached : ∀ sol ∈ solved, Relation.ReflTransGen (u.LeadsTo solved g) initial sol.demand.query

namespace Grown

variable (h : u.Grown initial solved s p)
include h

/-- Every edge's child is spawned beside a call. -/
theorem not_site (hp : u.program.WellFormed) {e : ProvenanceEdge} (he : e ∈ p.provenance.edges) :
    ¬ u.IsSite solved e.child := by
  rintro ⟨sol, hsol, f, hfinds, hchild⟩
  obtain ⟨fact, hfact⟩ := h.found sol hsol f hfinds
  obtain ⟨_, _, -, hexplains⟩ := h.explains_of_mem he
  obtain ⟨-, -, -, m, -, -, hyields⟩ := hexplains.spawned
  obtain ⟨id, s, hs, hasks⟩ := hyields.asks hp
  exact Statement.Asks.not_site hp hs (hchild ▸ hasks) fact hfact

/-- Every child is reached: its parent comes of the initial query or of an earlier child. -/
theorem reached_child {e : ProvenanceEdge} (he : e ∈ p.provenance.edges) :
    Relation.ReflTransGen (u.LeadsTo solved p.provenance) initial e.child := by
  refine h.child_induction (motive := Relation.ReflTransGen (u.LeadsTo solved p.provenance) initial)
    .refl (fun before e he hexplains hearlier => ?_) he
  obtain ⟨sol, hsol, hasked, hbrings⟩ := hexplains.brought
  have hsource := hearlier sol.demand.query hasked
  have hedge : u.LeadsTo solved p.provenance e.parent e.child := .inl ⟨e, he, rfl, rfl⟩
  rcases hbrings with hown | ⟨f, hfinds, hsite⟩
  · exact hsource.tail (hown ▸ hedge)
  · exact (hsource.tail (.inr ⟨sol, hsol, f, hfinds, rfl, hsite⟩)).tail hedge

theorem reached (sol : Solved Session) (hsol : sol ∈ solved) :
    Relation.ReflTransGen (u.LeadsTo solved p.provenance) initial sol.demand.query := by
  rcases h.asked hsol with hinitial | hchild
  · rw [hinitial]
  · obtain ⟨e, he, heq⟩ := List.mem_map.1 hchild
    exact heq ▸ h.reached_child he

section

variable (hpolicy : u.config.visitedPolicy = .queryIdentity)
include hpolicy

theorem queries_nodup : (initial :: p.provenance.edges.map ProvenanceEdge.child).Nodup := by
  have hvisited := List.nodup_reverse.2 h.lineage.nodup
  rw [h.lineage.visited, h.lineage.accepted, List.map_cons, List.map_map, hpolicy] at hvisited
  refine List.Nodup.of_map (fun q => (⟨q, none⟩ : DemandKey)) ?_
  rw [List.map_cons, List.map_map]
  exact hvisited

theorem ordered (hp : u.program.WellFormed) : p.provenance.Ordered := by
  have hnodup := List.nodup_cons.1 (h.queries_nodup hpolicy)
  refine ⟨hnodup.2, fun before e after hsplit hparent => ?_⟩
  obtain ⟨sol, hsol, hasked, hbrings⟩ := (h.edges before e after hsplit).brought
  obtain ⟨edge, hedge, hchild⟩ := List.mem_map.1 hparent
  rcases hbrings with hown | ⟨f, hfinds, hsite⟩
  · rw [hown] at hparent ⊢
    exact hasked.resolve_left fun heq => hnodup.1 (heq ▸ hparent)
  · exact absurd ⟨sol, hsol, f, hfinds, hchild.trans hsite⟩ (h.not_site hp hedge)

/-- The children are the spawned queries other than the initial one. -/
theorem mem_children_iff {q : Query} :
    q ∈ p.provenance.edges.map ProvenanceEdge.child ↔ u.Accepts initial solved q := by
  constructor
  · intro hq
    refine ⟨fun heq => (List.nodup_cons.1 (h.queries_nodup hpolicy)).1 (heq ▸ hq), ?_⟩
    obtain ⟨e, he, rfl⟩ := List.mem_map.1 hq
    obtain ⟨_, _, -, hexplains⟩ := h.explains_of_mem he
    obtain ⟨sol, hsol, -, m, hm, -, hyields⟩ := hexplains.spawned
    exact ⟨sol, hsol, m, hm, _, hyields, rfl⟩
  · rintro ⟨hne, sol, hsol, m, hm, x, hx, rfl⟩
    have hseen := h.offspring sol hsol _ (mem_offspring.2 ⟨m, hm, x, hx, rfl⟩)
    rw [← List.mem_reverse, h.lineage.visited, h.lineage.accepted, hpolicy] at hseen
    obtain ⟨d, hd, hkey⟩ := List.mem_map.1 hseen
    have hquery : d.query = x.query := congrArg DemandKey.query hkey
    rcases List.mem_cons.1 hd with rfl | hlater
    · exact absurd hquery.symm hne
    · obtain ⟨e, he, rfl⟩ := List.mem_map.1 hlater
      exact List.mem_map.2 ⟨e, he, hquery⟩

theorem incoming_eq_nil {q : Query} (hq : ¬ u.Accepts initial solved q) :
    p.provenance.incoming q = [] :=
  Provenance.incoming_eq_nil.2 fun _ he heq =>
    hq ((h.mem_children_iff hpolicy).1 (heq ▸ List.mem_map_of_mem he))

/-- A node that is no child is the initial query or the parent of an edge, thus a site. -/
theorem root_or_site {q : Query} (hnode : q ∈ p.provenance.queries)
    (hq : ¬ u.Accepts initial solved q) :
    q = initial ∨ (u.IsSite solved q ∧ ∃ e ∈ p.provenance.edges, e.parent = q) := by
  rw [← h.mem_children_iff hpolicy] at hq
  rcases (h.lineage.queries q).1 hnode with hinitial | ⟨e, he, rfl | rfl⟩
  · exact .inl hinitial
  · obtain ⟨before, after, hsplit, hexplains⟩ := h.explains_of_mem he
    obtain ⟨sol, hsol, hasked, hown | ⟨f, hfinds, hsite⟩⟩ := hexplains.brought
    · rcases hasked with hinitial | hchild
      · exact .inl (hown.trans hinitial)
      · refine absurd ?_ hq
        rw [hown, hsplit, List.map_append]
        exact List.mem_append_left _ hchild
    · exact .inr ⟨⟨sol, hsol, f, hfinds, hsite⟩, e, he, rfl⟩
  · exact absurd (List.mem_map_of_mem he) hq

theorem forest (hp : u.program.WellFormed) : u.Forest initial solved p.provenance where
  child q hq := by
    obtain ⟨e, he, rfl⟩ := List.mem_map.1 ((h.mem_children_iff hpolicy).2 hq)
    exact ⟨e, (h.ordered hpolicy hp).incoming_eq he⟩
  other q hnode hq := ⟨h.incoming_eq_nil hpolicy hq, h.root_or_site hpolicy hnode hq⟩
  root := h.incoming_eq_nil hpolicy fun hq => hq.1 rfl
  site q hsite := Provenance.incoming_eq_nil.2 fun e he heq => h.not_site hp he (heq ▸ hsite)
  acyclic := (h.ordered hpolicy hp).acyclic
  explained e he := by
    obtain ⟨_, _, -, hexplains⟩ := h.explains_of_mem he
    obtain ⟨sol, hsol, -, m, hm, hparent, hyields⟩ := hexplains.spawned
    obtain ⟨htrigger, hspawns⟩ := yields_iff.1 hyields
    exact ⟨sol, hsol, m, hm, hparent, htrigger, hspawns⟩
  reached := h.reached

end

end Grown

/-- Where the value that the call takes comes from. -/
def argumentQuery : Query := .backward ⟨relaySite.edge, relaySite.var⟩

end Setup

end GuidedDataflow
