import GuidedDataflow.Proofs.Solver.FactCover

/-!
What sessions record. In every session that solves have led to, a run kept under a query and
seeds is the exploration of that query from those seeds, so solving again finds what a fresh
exploration would. Solving therefore comes down to recording: it fails only where the session
is closed or the query's edge is unknown, and else records the run and, for a backward query,
the forward runs of the sites it found.
-/

namespace GuidedDataflow

open Std

/-- Both ends of the edge are statements. -/
def Program.Knows (p : Program) (e : Edge) : Prop :=
  (∃ s, p.statement? e.start = some s) ∧ ∃ s, p.statement? e.target = some s

namespace History

variable {ρ : Type} {h : History ρ} {seeds other : Seeds} {run r : ρ}

@[simp] theorem latest?_record : (h.record seeds run).latest? = some run := rfl

theorem mem_record : (other, r) ∈ (h.record seeds run).runs ↔
    (other = seeds ∧ r = run) ∨ ((other, r) ∈ h.runs ∧ other ≠ seeds) := by
  simp [record]

theorem mem_of_find? (hf : h.find? seeds = some run) : (seeds, run) ∈ h.runs := by
  obtain ⟨⟨other, r⟩, hfind, rfl⟩ := Option.map_eq_some_iff.1 hf
  have heq : other = seeds := by simpa using List.find?_some hfind
  exact heq ▸ List.mem_of_find?_eq_some hfind

@[simp] theorem find?_record_self : (h.record seeds run).find? seeds = some run := by
  simp [find?, record]

theorem mem_all : run ∈ h.all ↔ ∃ seeds, (seeds, run) ∈ h.runs := by
  simp [all]

/-- The history has runs, and each is what `explore` finds from its seeds. -/
structure Explores (h : History ρ) (explore : Seeds → ρ) : Prop where
  ne_nil : h.runs ≠ []
  eq_explore : ∀ seeds run, (seeds, run) ∈ h.runs → run = explore seeds

/-- What is kept under an optional history, or else explored now, is what is explored. -/
theorem getD_find?_eq {explore : Seeds → ρ} {kept : Option (History ρ)}
    (hkept : ∀ h, kept = some h → h.Explores explore) (seeds : Seeds) :
    ((kept.getD .empty).find? seeds).getD (explore seeds) = explore seeds := by
  cases hk : kept with
  | none => rfl
  | some h =>
    rw [Option.getD_some]
    cases hf : h.find? seeds with
    | none => rfl
    | some run => exact (hkept h hk).eq_explore seeds run (mem_of_find? hf)

theorem explores_record {explore : Seeds → ρ} {kept : Option (History ρ)}
    (hkept : ∀ h, kept = some h → h.Explores explore) (seeds : Seeds) :
    ((kept.getD .empty).record seeds (explore seeds)).Explores explore := by
  refine ⟨List.cons_ne_nil _ _, fun other run hmem => ?_⟩
  rcases mem_record.1 hmem with ⟨rfl, rfl⟩ | ⟨hmem, -⟩
  · rfl
  · cases hk : kept with
    | none => simp [hk, empty] at hmem
    | some h =>
      rw [hk, Option.getD_some] at hmem
      exact (hkept h hk).eq_explore other run hmem

end History

namespace BackwardRun

theorem mem_contextsOf {run : BackwardRun} {site : ForwardQuery} {context : CallString} :
    context ∈ run.contextsOf site ↔ ⟨site, context⟩ ∈ run.sightings := by
  simp only [contextsOf, OrderedSet.mem_ofList, List.mem_map, List.mem_filter, decide_eq_true_eq]
  constructor
  · rintro ⟨⟨_, _⟩, ⟨h, rfl⟩, rfl⟩
    exact h
  · exact fun h => ⟨_, ⟨h, rfl⟩, rfl⟩

theorem mem_sites {run : BackwardRun} {site : ForwardQuery} :
    site ∈ run.sites ↔ ∃ context, context ∈ run.contextsOf site := by
  simp only [mem_contextsOf, sites, OrderedSet.mem_ofList, List.mem_map]
  constructor
  · rintro ⟨⟨_, context⟩, h, rfl⟩
    exact ⟨context, h⟩
  · rintro ⟨context, h⟩
    exact ⟨_, h, rfl⟩

end BackwardRun

/-- The facts that steps in the query's direction lead to from its cell under the seeds. -/
def Query.facts (q : Query) (p : Program) (depth : Nat) (seeds : Seeds) : Set Fact :=
  reached (Flow.step p depth q.direction) (Session.seedFacts q.cell seeds)

namespace Session

/-- The exploration that a solve of the query from the seeds makes. -/
def exploration (s : Session) (q : Query) (seeds : Seeds) : Exploration :=
  s.explore (Flow.step s.program s.options.maxCallDepth q.direction) q.cell seeds

/-- The store of a query's run from the seeds. -/
def storeOf (s : Session) (q : Query) (seeds : Seeds) : FactStore := (s.exploration q seeds).store

theorem outcome_exploration (s : Session) (hp : s.program.WellFormed) (q : Query) (seeds : Seeds) :
    (s.exploration q seeds).Outcome (Flow.step s.program s.options.maxCallDepth q.direction)
      s.options.allows (seedFacts q.cell seeds) :=
  outcome_explore_step hp _ _ _ _ _

theorem mem_contextsOf_exploreBackward {s : Session} {q : BackwardQuery} {seeds : Seeds}
    {site : ForwardQuery} {context : CallString} :
    context ∈ (s.exploreBackward q seeds).contextsOf site ↔
      ∃ f ∈ (s.exploration (.backward q) seeds).expanded.toList,
        Flow.allocation? s.program f = some site ∧ f.context = context := by
  rw [BackwardRun.mem_contextsOf]
  simp only [exploreBackward, OrderedSet.mem_ofList, List.mem_filterMap, Option.map_eq_some_iff,
    Sighting.mk.injEq]
  constructor
  · rintro ⟨f, hf, _, hsite, rfl, hc⟩
    exact ⟨f, hf, hsite, hc⟩
  · rintro ⟨f, hf, hsite, hc⟩
    exact ⟨f, hf, _, hsite, rfl, hc⟩

/-- The call strings of a site are those of reached facts that report it. -/
theorem exists_reached_of_mem_contextsOf {s : Session} (hp : s.program.WellFormed)
    {q : BackwardQuery} {seeds : Seeds} {site : ForwardQuery} {context : CallString}
    (h : context ∈ (s.exploreBackward q seeds).contextsOf site) :
    ∃ f ∈ (Query.backward q).facts s.program s.options.maxCallDepth seeds,
      Flow.allocation? s.program f = some site ∧ f.context = context := by
  obtain ⟨f, hf, hsite⟩ := mem_contextsOf_exploreBackward.1 h
  exact ⟨f, (outcome_exploration s hp (.backward q) seeds).expanded_reached f hf, hsite⟩

/-- In a complete solve all reached facts that report a site give it their call strings. -/
theorem mem_contextsOf_iff {s : Session} (hp : s.program.WellFormed) {q : BackwardQuery}
    {seeds : Seeds} (hc : (s.storeOf (.backward q) seeds).complete = true) {site : ForwardQuery}
    {context : CallString} : context ∈ (s.exploreBackward q seeds).contextsOf site ↔
      ∃ f ∈ (Query.backward q).facts s.program s.options.maxCallDepth seeds,
        Flow.allocation? s.program f = some site ∧ f.context = context := by
  refine ⟨exists_reached_of_mem_contextsOf hp, ?_⟩
  rintro ⟨f, hf, hsite⟩
  have hexpanded := (outcome_exploration s hp (.backward q) seeds).reached_expanded hc f hf
  exact mem_contextsOf_exploreBackward.2 ⟨f, hexpanded, hsite⟩

def recordForward (s : Session) (q : ForwardQuery) (seeds : Seeds) : Session :=
  { s with forward :=
      s.forward.insert q ((s.forward[q]?.getD .empty).record seeds (s.exploreForward q seeds)) }

def recordBackward (s : Session) (q : BackwardQuery) (seeds : Seeds) : Session :=
  { s with backward :=
      s.backward.insert q ((s.backward[q]?.getD .empty).record seeds (s.exploreBackward q seeds)) }

/-- Records the sites of a backward run, each from the call strings it was met under. -/
def recordSites (s : Session) (run : BackwardRun) (sites : List ForwardQuery) : Session :=
  sites.foldl (fun s site => s.recordForward site (run.contextsOf site)) s

/-- The session after a solve. -/
def after (s : Session) : Query → Seeds → Session
  | .forward q, seeds => s.recordForward q seeds
  | .backward q, seeds =>
    let run := s.exploreBackward q seeds
    (s.recordBackward q seeds).recordSites run run.sites.toList

/-- Every kept run is the exploration of its query from its seeds. -/
structure Coherent (s : Session) : Prop where
  forward : ∀ (q : ForwardQuery) (h : History FactStore), s.forward[q]? = some h →
    h.Explores (s.exploreForward q)
  backward : ∀ (q : BackwardQuery) (h : History BackwardRun), s.backward[q]? = some h →
    h.Explores (s.exploreBackward q)

/-- The sessions that solves and closing lead to from a new one. -/
inductive Reached (p : Program) (o : SolverOptions) : Session → Prop
  | start {s : Session} (h : Session.start p o = .ok s) : Reached p o s
  | solve {s s' : Session} {q : Query} {seeds : Seeds} {t : Table} (hs : Reached p o s)
      (h : s.solveFrom q seeds = .ok (t, s')) : Reached p o s'
  | close {s : Session} (hs : Reached p o s) : Reached p o s.close

variable {s : Session}

theorem ensureOpen_eq_ok (s : Session) : s.ensureOpen = .ok () ↔ s.closed = false := by
  unfold ensureOpen
  cases s.closed <;> simp

theorem checkEdge_eq_ok (s : Session) (e : Edge) :
    s.checkEdge e = .ok () ↔ s.program.Knows e := by
  unfold checkEdge Program.Knows
  cases s.program.statement? e.start <;> cases s.program.statement? e.target <;> simp

section Fields

variable (s) (q : ForwardQuery) (b : BackwardQuery) (seeds : Seeds) (run : BackwardRun)
  (sites : List ForwardQuery)

@[simp] theorem recordForward_program : (s.recordForward q seeds).program = s.program := rfl

@[simp] theorem recordForward_options : (s.recordForward q seeds).options = s.options := rfl

@[simp] theorem recordForward_closed : (s.recordForward q seeds).closed = s.closed := rfl

@[simp] theorem recordForward_backward : (s.recordForward q seeds).backward = s.backward := rfl

@[simp] theorem recordSites_nil : s.recordSites run [] = s := rfl

@[simp] theorem recordSites_cons (site : ForwardQuery) : s.recordSites run (site :: sites) =
    (s.recordForward site (run.contextsOf site)).recordSites run sites := rfl

@[simp] theorem recordSites_program : (s.recordSites run sites).program = s.program := by
  induction sites generalizing s with
  | nil => rfl
  | cons site sites ih => rw [recordSites_cons, ih, recordForward_program]

@[simp] theorem recordSites_options : (s.recordSites run sites).options = s.options := by
  induction sites generalizing s with
  | nil => rfl
  | cons site sites ih => rw [recordSites_cons, ih, recordForward_options]

@[simp] theorem recordSites_closed : (s.recordSites run sites).closed = s.closed := by
  induction sites generalizing s with
  | nil => rfl
  | cons site sites ih => rw [recordSites_cons, ih, recordForward_closed]

@[simp] theorem recordSites_backward : (s.recordSites run sites).backward = s.backward := by
  induction sites generalizing s with
  | nil => rfl
  | cons site sites ih => rw [recordSites_cons, ih, recordForward_backward]

@[simp] theorem after_program (q : Query) : (s.after q seeds).program = s.program := by
  cases q with
  | forward q => rfl
  | backward q => exact recordSites_program _ _ _

@[simp] theorem after_options (q : Query) : (s.after q seeds).options = s.options := by
  cases q with
  | forward q => rfl
  | backward q => exact recordSites_options _ _ _

@[simp] theorem after_closed (q : Query) : (s.after q seeds).closed = s.closed := by
  cases q with
  | forward q => rfl
  | backward q => exact recordSites_closed _ _ _

end Fields

theorem getElem?_recordForward (s : Session) (q other : ForwardQuery) (seeds : Seeds) :
    (s.recordForward q seeds).forward[other]? =
      if q = other then
        some ((s.forward[q]?.getD .empty).record seeds (s.exploreForward q seeds))
      else s.forward[other]? := by
  simp only [recordForward, TreeMap.getElem?_insert, Std.compare_eq_iff_eq]

theorem getElem?_recordBackward (s : Session) (q other : BackwardQuery) (seeds : Seeds) :
    (s.recordBackward q seeds).backward[other]? =
      if q = other then
        some ((s.backward[q]?.getD .empty).record seeds (s.exploreBackward q seeds))
      else s.backward[other]? := by
  simp only [recordBackward, TreeMap.getElem?_insert, Std.compare_eq_iff_eq]

namespace Coherent

/-- A session without runs is coherent. -/
theorem empty (p : Program) (o : SolverOptions) (closed : Bool) :
    (⟨p, o, ∅, ∅, closed⟩ : Session).Coherent :=
  ⟨fun _ _ h => by simp at h, fun _ _ h => by simp at h⟩

theorem recordForward (hs : s.Coherent) (q : ForwardQuery) (seeds : Seeds) :
    (s.recordForward q seeds).Coherent := by
  refine ⟨fun other h hh => ?_, hs.backward⟩
  rw [getElem?_recordForward] at hh
  split at hh
  · next heq =>
    subst heq
    obtain rfl := Option.some.inj hh
    exact History.explores_record (hs.forward q) seeds
  · exact hs.forward other h hh

theorem recordBackward (hs : s.Coherent) (q : BackwardQuery) (seeds : Seeds) :
    (s.recordBackward q seeds).Coherent := by
  refine ⟨hs.forward, fun other h hh => ?_⟩
  rw [getElem?_recordBackward] at hh
  split at hh
  · next heq =>
    subst heq
    obtain rfl := Option.some.inj hh
    exact History.explores_record (hs.backward q) seeds
  · exact hs.backward other h hh

theorem recordSites (hs : s.Coherent) (run : BackwardRun) (sites : List ForwardQuery) :
    (s.recordSites run sites).Coherent := by
  induction sites generalizing s with
  | nil => exact hs
  | cons site sites ih => exact ih (hs.recordForward site _)

theorem after (hs : s.Coherent) (q : Query) (seeds : Seeds) : (s.after q seeds).Coherent := by
  cases q with
  | forward q => exact hs.recordForward q seeds
  | backward q => exact (hs.recordBackward q seeds).recordSites _ _

end Coherent

namespace InPlace

variable {α β : Type} {rest : α → InPlace β}

theorem bind_of_ok {work : InPlace α} {a : α} {s' : Session} (h : work s = .ok a s') :
    (work >>= rest) s = rest a s' := by
  simp only [bind, EStateM.bind, h]

theorem bind_of_error {work : InPlace α} {e : SolveError} {s' : Session}
    (h : work s = .error e s') : (work >>= rest) s = .error e s' := by
  simp only [bind, EStateM.bind, h]

theorem ask_of_ok {question : Session → Except SolveError α} {a : α} (h : question s = .ok a) :
    ask question s = .ok a s := by
  rw [ask, h]

theorem ask_of_error {question : Session → Except SolveError α} {e : SolveError}
    (h : question s = .error e) : ask question s = .error e s := by
  rw [ask, h]

theorem answer_of_ok {work : InPlace α} {a : α} {s' : Session} (h : work s = .ok a s') :
    work.answer s = .ok (a, s') := by
  rw [answer, h]

theorem answer_of_error {work : InPlace α} {e : SolveError} {s' : Session}
    (h : work s = .error e s') : work.answer s = .error e := by
  rw [answer, h]

end InPlace

/-- Taking a run records the exploration, whether it is new or kept. -/
theorem takeForward_eq (hs : s.Coherent) (q : ForwardQuery) (seeds : Seeds) :
    takeForward q seeds s = .ok (s.exploreForward q seeds) (s.recordForward q seeds) := by
  have hstore := History.getD_find?_eq (hs.forward q) seeds
  unfold recordForward
  rw [← hstore]
  rfl

theorem takeBackward_eq (hs : s.Coherent) (q : BackwardQuery) (seeds : Seeds) :
    takeBackward q seeds s = .ok (s.exploreBackward q seeds) (s.recordBackward q seeds) := by
  have hrun := History.getD_find?_eq (hs.backward q) seeds
  unfold recordBackward
  rw [← hrun]
  rfl

/-- Work that begins with the checks of a solve, on an open session over a known edge. -/
theorem checked_of_ok {α : Type} {e : Edge} {rest : InPlace α} (hopen : s.closed = false)
    (he : s.program.Knows e) : (do .ask ensureOpen; .ask (·.checkEdge e); rest : InPlace α) s =
      rest s := by
  rw [InPlace.bind_of_ok (InPlace.ask_of_ok ((ensureOpen_eq_ok s).2 hopen)),
    InPlace.bind_of_ok (InPlace.ask_of_ok ((checkEdge_eq_ok s e).2 he))]

/-- Work whose checks fail has not changed anything. -/
theorem checked_of_error {α : Type} {edge : Edge} {e : SolveError} {rest : InPlace α}
    (h : (do s.ensureOpen; s.checkEdge edge) = .error e) :
    (do .ask ensureOpen; .ask (·.checkEdge edge); rest : InPlace α) s = .error e s := by
  cases hopen : s.ensureOpen with
  | error e' =>
    obtain rfl : e' = e := by simpa [hopen, bind, Except.bind] using h
    exact InPlace.bind_of_error (InPlace.ask_of_error hopen)
  | ok u =>
    have hedge : s.checkEdge edge = .error e := by simpa [hopen, bind, Except.bind] using h
    rw [InPlace.bind_of_ok (InPlace.ask_of_ok hopen)]
    exact InPlace.bind_of_error (InPlace.ask_of_error hedge)

theorem performForward_eq (hs : s.Coherent) (hopen : s.closed = false) (q : ForwardQuery)
    (hq : s.program.Knows q.edge) (seeds : Seeds) :
    performForward q seeds s =
      .ok (s.exploreForward q seeds).table (s.recordForward q seeds) := by
  unfold performForward
  rw [checked_of_ok hopen hq, InPlace.bind_of_ok (takeForward_eq hs q seeds)]
  rfl

theorem performSites_eq (hs : s.Coherent) (hopen : s.closed = false) (run : BackwardRun)
    (sites : List ForwardQuery) (hsites : ∀ site ∈ sites, s.program.Knows site.edge) :
    performSites run sites s = .ok () (s.recordSites run sites) := by
  induction sites generalizing s with
  | nil => rfl
  | cons site sites ih =>
    rw [performSites, InPlace.bind_of_ok
      (performForward_eq hs hopen site (hsites site List.mem_cons_self) _)]
    exact ih (hs.recordForward site _) hopen fun other hother =>
      hsites other (List.mem_cons_of_mem _ hother)

/-- A site lies on an edge of the program or on the edge of the query that found it. -/
theorem site_edge (hp : s.program.WellFormed) {q : BackwardQuery} {seeds : Seeds}
    {site : ForwardQuery} (h : site ∈ (s.exploreBackward q seeds).sites) :
    site.edge ∈ q.edge :: s.program.edges := by
  obtain ⟨context, hc⟩ := BackwardRun.mem_sites.1 h
  obtain ⟨f, hreached, hsite, -⟩ := exists_reached_of_mem_contextsOf hp hc
  obtain ⟨-, -, -, -, -, rfl⟩ := Flow.allocation?_eq_some.1 hsite
  exact (mem_factCover.1 (mem_factCover_of_reached hp _ _ _ _ f hreached)).edge

theorem knows_site (hp : s.program.WellFormed) {q : BackwardQuery} {seeds : Seeds}
    (hq : s.program.Knows q.edge) {site : ForwardQuery}
    (h : site ∈ (s.exploreBackward q seeds).sites) : s.program.Knows site.edge := by
  rcases List.mem_cons.1 (site_edge hp h) with heq | hmem
  · exact heq ▸ hq
  · exact hp.ends_of_mem_edges hmem

/-- The sites of a backward run can all be solved once the run has been taken. -/
theorem performSites_taken (hp : s.program.WellFormed) (hs : s.Coherent) (hopen : s.closed = false)
    (q : BackwardQuery) (hq : s.program.Knows q.edge) (seeds : Seeds) :
    performSites (s.exploreBackward q seeds) (s.exploreBackward q seeds).sites.toList
      (s.recordBackward q seeds) = .ok () (s.after (.backward q) seeds) :=
  performSites_eq (hs.recordBackward q seeds) hopen _ _ fun _ hsite => knows_site hp hq hsite

theorem performBackward_eq (hp : s.program.WellFormed) (hs : s.Coherent) (hopen : s.closed = false)
    (q : BackwardQuery) (hq : s.program.Knows q.edge) (seeds : Seeds) :
    performBackward q seeds s =
      .ok (s.exploreBackward q seeds).store.table (s.after (.backward q) seeds) := by
  unfold performBackward
  rw [checked_of_ok hopen hq, InPlace.bind_of_ok (takeBackward_eq hs q seeds),
    InPlace.bind_of_ok (performSites_taken hp hs hopen q hq seeds)]
  rfl

theorem performFrom_eq (hp : s.program.WellFormed) (hs : s.Coherent) (hopen : s.closed = false)
    (q : Query) (hq : s.program.Knows q.edge) (seeds : Seeds) :
    performFrom q seeds s = .ok (s.storeOf q seeds).table (s.after q seeds) := by
  cases q with
  | forward q => exact performForward_eq hs hopen q hq seeds
  | backward q => exact performBackward_eq hp hs hopen q hq seeds

theorem performFrom_error {e : SolveError} (q : Query) (seeds : Seeds)
    (h : (do s.ensureOpen; s.checkEdge q.edge) = .error e) :
    performFrom q seeds s = .error e s := by
  cases q with
  | forward q => exact checked_of_error h
  | backward q => exact checked_of_error h

/-- A solve on an open session over a known edge succeeds, with the table of the exploration. -/
theorem solveFrom_eq (hp : s.program.WellFormed) (hs : s.Coherent) (hopen : s.closed = false)
    (q : Query) (hq : s.program.Knows q.edge) (seeds : Seeds) :
    s.solveFrom q seeds = .ok ((s.storeOf q seeds).table, s.after q seeds) :=
  InPlace.answer_of_ok (performFrom_eq hp hs hopen q hq seeds)

theorem solveFrom_error {e : SolveError} (q : Query) (seeds : Seeds)
    (h : (do s.ensureOpen; s.checkEdge q.edge) = .error e) : s.solveFrom q seeds = .error e :=
  InPlace.answer_of_error (performFrom_error q seeds h)

/-- A successful solve was one on an open session over a known edge. -/
theorem open_knows_of_solveFrom {q : Query} {seeds : Seeds} {r : Table × Session}
    (h : s.solveFrom q seeds = .ok r) : s.closed = false ∧ s.program.Knows q.edge := by
  rw [← ensureOpen_eq_ok, ← checkEdge_eq_ok]
  cases hopen : s.ensureOpen with
  | error e =>
    rw [solveFrom_error q seeds (by rw [hopen]; rfl)] at h
    cases h
  | ok u =>
    cases hedge : s.checkEdge q.edge with
    | error e =>
      rw [solveFrom_error q seeds (by rw [hopen, hedge]; rfl)] at h
      cases h
    | ok v => exact ⟨rfl, rfl⟩

/-- A solve is complete exactly where the limits afford a step for every fact. -/
theorem complete_of_solveFrom (hp : s.program.WellFormed) (hs : s.Coherent) {q : Query}
    {seeds : Seeds} {t : Table} {s' : Session} (h : s.solveFrom q seeds = .ok (t, s')) :
    t.complete = true ↔
      Affords s.options.allows (q.facts s.program s.options.maxCallDepth seeds).ncard := by
  obtain ⟨hopen, hq⟩ := open_knows_of_solveFrom h
  rw [solveFrom_eq hp hs hopen q hq seeds] at h
  cases h
  exact (outcome_exploration s hp q seeds).complete_iff

namespace Reached

variable {p : Program} {o : SolverOptions}

theorem program_options (hs : Reached p o s) (hp : p.WellFormed) :
    s.program = p ∧ s.options = o ∧ s.Coherent := by
  induction hs with
  | start h =>
    unfold Session.start at h
    split at h
    · cases h
    · cases h
      exact ⟨rfl, rfl, .empty ..⟩
  | @solve s s' q seeds t _ h ih =>
    obtain ⟨rfl, rfl, hcoh⟩ := ih
    obtain ⟨hopen, hq⟩ := open_knows_of_solveFrom h
    rw [solveFrom_eq hp hcoh hopen q hq seeds] at h
    cases h
    exact ⟨after_program s seeds q, after_options s seeds q, hcoh.after q seeds⟩
  | close _ ih => exact ⟨ih.1, ih.2.1, .empty ..⟩

end Reached

end Session

end GuidedDataflow
