import GuidedDataflow.Proofs.Guide.Closure

/-!
A global rescan whose constructor rules never fire is the local policy. Whatever a forward table
of the session spawns has been seen: its table was matched when it last changed, after a solve
of its query or of a backward query that found it as a site. So of the tables that a rescan
matches only those of the sites bring new demands, and of the others no trace is left but in
the counters.
-/

namespace GuidedDataflow

open Session Std

variable {σ : Type}

/-- The rule fires at no call of the program, whatever value flows in. -/
def ConstructorRule.IdleOn (r : ConstructorRule) (p : Program) : Prop :=
  ∀ s ∈ p.statements.toList, ∀ call, s.call? = some call → ∀ value, r.applies call value = false

theorem ConstructorRule.spawn_of_idle {r : ConstructorRule} {p : Program} (h : r.IdleOn p)
    (t : Table) : r.spawn p t = [] := by
  refine List.eq_nil_iff_forall_not_mem.2 fun x hx => ?_
  obtain ⟨s, call, -, hs, hcall, -, happlies, -⟩ := mem_queriesAt.1 (mem_spawn.1 hx).2
  rw [h s (Program.mem_of_statement? hs) call hcall] at happlies
  cases happlies

/-- The statistics but for the counters that matching a table again raises. -/
def Statistics.withoutRescans (s : Statistics) : Statistics :=
  { s with duplicatesDropped := 0, specSpawned := 0, rescannedTables := 0 }

def Report.withoutRescans (r : Report) : Report :=
  { r with statistics := r.statistics.withoutRescans }

/-- The setup with another propagation policy. -/
def Setup.withPropagation (u : Setup) (propagation : Propagation) : Setup :=
  { u with config := { u.config with propagation := propagation } }

namespace Setup

variable {b : Backend σ} {s : σ} {f : ForwardQuery}

theorem forwardTables_cons_of_none (h : b.forwardTable? s f = none) (rest : List ForwardQuery) :
    forwardTables b s (f :: rest) = forwardTables b s rest := by
  simp only [forwardTables, List.filterMap_cons, h, Option.map_none]

theorem forwardTables_cons_of_some {t : Table} (h : b.forwardTable? s f = some t)
    (rest : List ForwardQuery) : forwardTables b s (f :: rest) =
      ⟨.forward f, .forward, t⟩ :: forwardTables b s rest := by
  simp only [forwardTables, List.filterMap_cons, h, Option.map_some]

end Setup

namespace Progress

def withoutRescans (p : Progress) : Progress :=
  { p with
    agenda := { p.agenda with dropped := 0 }
    statistics := p.statistics.withoutRescans }

variable {p q : Progress} {u : Setup}

theorem withoutRescans_enqueue (p : Progress) (parent : Query) (source : SpawnSource)
    (spawn : Spawn) : (p.enqueue parent source spawn).withoutRescans =
      (p.withoutRescans.enqueue parent source spawn).withoutRescans := by
  have hsame : p.withoutRescans.agenda.accepts (.within spawn.query spawn.trigger parent) =
      p.agenda.accepts (.within spawn.query spawn.trigger parent) := rfl
  cases haccepts : p.agenda.accepts (.within spawn.query spawn.trigger parent) with
  | true =>
    simp only [enqueue, hsame, haccepts, if_true, Agenda.push_of_accepts haccepts,
      Agenda.push_of_accepts (hsame.trans haccepts)]
    cases source <;> rfl
  | false =>
    simp only [enqueue, hsame, haccepts, Bool.false_eq_true, if_false,
      Agenda.push_of_seen haccepts, Agenda.push_of_seen (hsame.trans haccepts)]
    cases source <;> rfl

theorem enqueue_congr (h : p.withoutRescans = q.withoutRescans) (parent : Query)
    (source : SpawnSource) (spawn : Spawn) : (p.enqueue parent source spawn).withoutRescans =
      (q.enqueue parent source spawn).withoutRescans := by
  rw [withoutRescans_enqueue, h, ← withoutRescans_enqueue]

theorem absorb_congr (h : p.withoutRescans = q.withoutRescans) (m : Matched) :
    (p.absorb u m).withoutRescans = (q.absorb u m).withoutRescans := by
  unfold absorb
  induction u.spawns m generalizing p q with
  | nil => exact h
  | cons x spawns ih => exact ih (enqueue_congr h m.parent x.1 x.2)

theorem foldl_absorb_congr (h : p.withoutRescans = q.withoutRescans) (ms : List Matched) :
    (ms.foldl (·.absorb u ·) p).withoutRescans = (ms.foldl (·.absorb u ·) q).withoutRescans := by
  induction ms generalizing p q with
  | nil => exact h
  | cons m ms ih => exact ih (absorb_congr h m)

theorem enqueue_of_seen {parent : Query} {spawn : Spawn}
    (h : p.agenda.accepts (.within spawn.query spawn.trigger parent) = false) :
    (p.enqueue parent .specification spawn).withoutRescans = p.withoutRescans := by
  simp only [enqueue, h, Bool.false_eq_true, if_false, Agenda.push_of_seen h]
  rfl

/-- The specification alone makes the matched table spawn, and whatever it spawns has been seen. -/
def Saturated (p : Progress) (u : Setup) (m : Matched) : Prop :=
  ∀ x ∈ u.spawns m, x.1 = .specification ∧
    p.agenda.accepts (.within x.2.query x.2.trigger m.parent) = false

theorem Saturated.mono {m : Matched} (h : p.Saturated u m) {ds : List Demand}
    (hagenda : q.agenda = p.agenda.pushAll ds) : q.Saturated u m := by
  intro x hx
  rw [hagenda]
  exact ⟨(h x hx).1, Agenda.seen_pushAll (h x hx).2⟩

/-- Matching a saturated table again shows in the counters only. -/
theorem Saturated.absorb {m : Matched} (h : p.Saturated u m) :
    (p.absorb u m).withoutRescans = p.withoutRescans := by
  unfold Progress.absorb
  unfold Saturated at h
  generalize u.spawns m = spawns at h ⊢
  induction spawns generalizing p with
  | nil => rfl
  | cons x spawns ih =>
    obtain ⟨⟨hsource, hseen⟩, hlater⟩ := List.forall_mem_cons.1 h
    obtain ⟨source, spawn⟩ := x
    obtain rfl : source = .specification := hsource
    have hagenda := agenda_enqueue p m.parent .specification spawn
    have hnext : ∀ y ∈ spawns, y.1 = .specification ∧
        (p.enqueue m.parent .specification spawn).agenda.accepts
          (.within y.2.query y.2.trigger m.parent) = false := by
      intro y hy
      rw [hagenda]
      exact ⟨(hlater y hy).1, Agenda.seen_push (hlater y hy).2⟩
    exact (ih hnext).trans (enqueue_of_seen hseen)

/-- Of the listed forward tables those that are saturated need not be matched. -/
theorem foldl_absorb_filter {b : Backend σ} {s : σ} (keep : ForwardQuery → Bool)
    (queries : List ForwardQuery) (h : ∀ f ∈ queries, keep f = false → ∀ t,
      b.forwardTable? s f = some t → p.Saturated u ⟨.forward f, .forward, t⟩) :
    ((Setup.forwardTables b s queries).foldl (·.absorb u ·) p).withoutRescans =
      ((Setup.forwardTables b s (queries.filter keep)).foldl (·.absorb u ·) p).withoutRescans := by
  induction queries generalizing p with
  | nil => rfl
  | cons f queries ih =>
    obtain ⟨hhead, hlater⟩ := List.forall_mem_cons.1 h
    cases htable : b.forwardTable? s f with
    | none =>
      rw [Setup.forwardTables_cons_of_none htable, ih hlater, List.filter_cons]
      split
      · rw [Setup.forwardTables_cons_of_none htable]
      · rfl
    | some t =>
      have hcons := Setup.forwardTables_cons_of_some htable
      cases hkeep : keep f with
      | true =>
        rw [List.filter_cons_of_pos hkeep, hcons, hcons, List.foldl_cons, List.foldl_cons]
        exact ih fun g hg hskip t ht => (hlater g hg hskip t ht).mono (agenda_absorb ..)
      | false =>
        rw [List.filter_cons_of_neg (Bool.eq_false_iff.1 hkeep), hcons, List.foldl_cons,
          foldl_absorb_congr (hhead hkeep t htable).absorb, ih hlater]

/-- The progress of a solve before its tables are matched. -/
def collected (p : Progress) (u : Setup) (b : Backend σ) (s : σ) (d : Demand) (t : Table) :
    Progress :=
  let recorded := p.record d t
  { recorded with
    collector := (Setup.candidates b s d.query).foldl (·.consider u.program ·) recorded.collector
    statistics :=
      { recorded.statistics with
        allocationSitesSeen :=
          recorded.statistics.allocationSitesSeen + Setup.sitesSeen b s d.query
        rescannedTables :=
          recorded.statistics.rescannedTables + (u.rescanned b s d.query).length } }

theorem afterSolve_eq (p : Progress) (u : Setup) (b : Backend σ) (s : σ) (d : Demand) (t : Table) :
    p.afterSolve u b s d t =
      (u.matched b s d.query t).foldl (·.absorb u ·) (p.collected u b s d t) := rfl

theorem withoutRescans_collected (p : Progress) (u : Setup) (b : Backend σ) (s : σ) (d : Demand)
    (t : Table) (propagation : Propagation) :
    (p.collected (u.withPropagation propagation) b s d t).withoutRescans =
      (p.withoutRescans.collected u b s d t).withoutRescans := rfl

theorem collected_congr (h : p.withoutRescans = q.withoutRescans) (b : Backend σ) (s : σ)
    (d : Demand) (t : Table) (one other : Propagation) :
    (p.collected (u.withPropagation one) b s d t).withoutRescans =
      (q.collected (u.withPropagation other) b s d t).withoutRescans := by
  rw [withoutRescans_collected, h, ← withoutRescans_collected]

end Progress

namespace Session

variable {s : Session}

theorem reachability_allocationSites_after (s : Session) (b : BackwardQuery) (seeds : Seeds) :
    (Backend.reachability s.program).allocationSites (s.after (.backward b) seeds) b =
      (s.exploreBackward b seeds).sites := by
  refine OrderedSet.ext fun site => ?_
  rw [BackwardRun.mem_sites, ← mem_allocationSites_after]
  exact OrderedSet.mem_ofList

/-- All sites that a backward solve finds are active, and listed in the same order. -/
theorem filter_activeForward_after (s : Session) (b : BackwardQuery) (seeds : Seeds) :
    (s.after (.backward b) seeds).activeForward.filter
        (fun f => decide (f ∈ (s.exploreBackward b seeds).sites)) =
      (s.exploreBackward b seeds).sites.toList := by
  have hactive : Increasing (s.after (.backward b) seeds).activeForward := TreeMap.ordered_keys
  have hfiltered : Increasing ((s.after (.backward b) seeds).activeForward.filter
      fun f => decide (f ∈ (s.exploreBackward b seeds).sites)) := hactive.filter _
  refine hfiltered.ext (s.exploreBackward b seeds).sites.increasing fun f => ?_
  rw [List.mem_filter, decide_eq_true_eq]
  refine ⟨And.right, fun hsite => ⟨?_, hsite⟩⟩
  have htable := forwardTable?_after_backward s b seeds f
  rw [if_pos (OrderedSet.mem_def.2 hsite)] at htable
  exact mem_activeForward htable

end Session

namespace Setup

variable {u : Setup}

/-- A forward table is matched when it changes. -/
theorem mem_matched_or_kept (u : Setup) {s : Session} (q : Query) (seeds : Seeds) {f : ForwardQuery}
    {t : Table} (h : (s.after q seeds).forwardTable? f = some t) :
    ⟨.forward f, .forward, t⟩ ∈ u.matched (.reachability u.program) (s.after q seeds) q
        (s.storeOf q seeds).table ∨ s.forwardTable? f = some t := by
  cases q with
  | forward q =>
    have hrecord : (s.recordForward q seeds).forwardTable? f = some t := h
    rw [forwardTable?_recordForward] at hrecord
    split at hrecord
    · next heq =>
      subst heq
      cases hrecord
      exact .inl List.mem_cons_self
    · exact .inr hrecord
  | backward b =>
    by_cases hsite : f ∈ (s.exploreBackward b seeds).sites
    · have hreported := (mem_allocationSites_after s b seeds f).2 (BackwardRun.mem_sites.1 hsite)
      exact .inl (mem_matched_site hreported h)
    · rw [forwardTable?_after_backward, if_neg hsite] at h
      exact .inr h

/-- Whatever the forward tables of the session spawn has been seen. -/
def Settled (u : Setup) (s : Session) (p : Progress) : Prop :=
  ∀ f t, s.forwardTable? f = some t → p.Saturated u ⟨.forward f, .forward, t⟩

theorem Settled.afterSolve {s : Session} {p : Progress} (h : u.Settled s p)
    (hspec : ∀ m, ∀ x ∈ u.spawns m, x.1 = .specification) (d : Demand) (seeds : Seeds) :
    u.Settled (s.after d.query seeds) (p.afterSolve u (.reachability u.program)
      (s.after d.query seeds) d (s.storeOf d.query seeds).table) := by
  have hagenda := p.agenda_afterSolve u (.reachability u.program) (s.after d.query seeds) d
    (s.storeOf d.query seeds).table
  intro f t ht
  rcases u.mem_matched_or_kept d.query seeds ht with hmatched | hkept
  · intro x hx
    refine ⟨hspec _ x hx, ?_⟩
    rw [hagenda]
    exact Agenda.seen_of_mem (List.mem_flatMap.2 ⟨_, hmatched, List.mem_map_of_mem hx⟩)
  · exact (h f t hkept).mono hagenda

/-- A setup spawns by its specification alone where its constructor rules are idle. -/
theorem spawns_of_idle (hidle : ∀ rule ∈ u.config.propagation.constructorRules,
    rule.IdleOn u.program) (m : Matched) :
    u.spawns m = (u.spec.spawn u.program m.direction m.table).map (.specification, ·) := by
  unfold spawns
  cases m.direction with
  | backward => exact List.append_nil _
  | forward =>
    have hnone : (u.config.propagation.constructorRules.flatMap fun rule =>
        (rule.spawn u.program m.table).map (SpawnSource.builtIn, ·)) = [] := by
      refine List.flatMap_eq_nil_iff.2 fun rule hrule => ?_
      rw [ConstructorRule.spawn_of_idle (hidle rule hrule), List.map_nil]
    simp only [hnone, List.append_nil]

theorem specification_of_idle (hidle : ∀ rule ∈ u.config.propagation.constructorRules,
    rule.IdleOn u.program) (m : Matched) : ∀ x ∈ u.spawns m, x.1 = .specification := by
  intro x hx
  rw [spawns_of_idle hidle] at hx
  obtain ⟨_, -, rfl⟩ := List.mem_map.1 hx
  rfl

variable {rules : List ConstructorRule}

theorem idle_local : ∀ rule ∈ (u.withPropagation .localOnly).config.propagation.constructorRules,
    rule.IdleOn (u.withPropagation .localOnly).program :=
  fun _ hrule => (List.not_mem_nil hrule).elim

theorem absorb_of_idle (hidle : ∀ rule ∈ rules, rule.IdleOn u.program) :
    (fun (p : Progress) m => p.absorb (u.withPropagation (.globalRescan rules)) m) =
      fun p m => p.absorb (u.withPropagation .localOnly) m := by
  funext p m
  have hfar := spawns_of_idle (u := u.withPropagation (.globalRescan rules)) hidle m
  have hnear := spawns_of_idle (u := u.withPropagation .localOnly) idle_local m
  unfold Progress.absorb
  rw [hfar, hnear]
  rfl

theorem matched_local (u : Setup) (b : Backend σ) (s : σ) (q : BackwardQuery) (t : Table) :
    (u.withPropagation .localOnly).matched b s (.backward q) t =
      ⟨.backward q, .backward, t⟩ :: forwardTables b s (b.allocationSites s q).toList := by
  simp only [matched, siteTables, rescanned, withPropagation, Query.direction, List.append_nil]

theorem matched_rescan (u : Setup) (b : Backend σ) (s : σ) (q : BackwardQuery) (t : Table) :
    (u.withPropagation (.globalRescan rules)).matched b s (.backward q) t =
      ⟨.backward q, .backward, t⟩ :: forwardTables b s (b.activeForward s) := by
  simp only [matched, siteTables, rescanned, withPropagation, Query.direction, List.nil_append]

/-- Matching all active tables of a settled session shows no more than matching those of the
sites, but in the counters. -/
theorem foldl_matched_rescan {s : Session} (hprogram : s.program = u.program) {p : Progress}
    (hsettled : (u.withPropagation .localOnly).Settled s p) (q : Query) (seeds : Seeds)
    (t : Table) :
    (((u.withPropagation (.globalRescan rules)).matched (.reachability u.program)
        (s.after q seeds) q t).foldl (·.absorb (u.withPropagation .localOnly) ·) p).withoutRescans =
      (((u.withPropagation .localOnly).matched (.reachability u.program)
        (s.after q seeds) q t).foldl
          (·.absorb (u.withPropagation .localOnly) ·) p).withoutRescans := by
  cases q with
  | forward f => rfl
  | backward b =>
    have hsites := reachability_allocationSites_after s b seeds
    rw [hprogram] at hsites
    have hunchanged : ∀ f ∈ (s.after (.backward b) seeds).activeForward,
        decide (f ∈ (s.exploreBackward b seeds).sites) = false → ∀ t',
          (Backend.reachability u.program).forwardTable? (s.after (.backward b) seeds) f = some t' →
            (p.absorb (u.withPropagation .localOnly) ⟨.backward b, .backward, t⟩).Saturated
              (u.withPropagation .localOnly) ⟨.forward f, .forward, t'⟩ := by
      -- a table that is no site's has not changed, so it is still saturated
      intro f _ hother t' ht'
      rw [Backend.reachability_forwardTable?, forwardTable?_after_backward,
        if_neg (of_decide_eq_false hother)] at ht'
      exact (hsettled f t' ht').mono (Progress.agenda_absorb ..)
    rw [matched_local, matched_rescan, hsites, ← filter_activeForward_after,
      Backend.reachability_activeForward, List.foldl_cons, List.foldl_cons]
    exact Progress.foldl_absorb_filter _ _ hunchanged

/-- On what a solve brings the two policies agree but for the counters. -/
theorem afterSolve_rescan (hidle : ∀ rule ∈ rules, rule.IdleOn u.program) {s : Session}
    (hprogram : s.program = u.program) {p q : Progress}
    (hsettled : (u.withPropagation .localOnly).Settled s p)
    (h : q.withoutRescans = p.withoutRescans) (d : Demand) (seeds : Seeds) (t : Table) :
    (q.afterSolve (u.withPropagation (.globalRescan rules)) (.reachability u.program)
        (s.after d.query seeds) d t).withoutRescans =
      (p.afterSolve (u.withPropagation .localOnly) (.reachability u.program)
        (s.after d.query seeds) d t).withoutRescans := by
  have hcollected := Progress.collected_congr (u := u) h (.reachability u.program)
    (s.after d.query seeds) d t (.globalRescan rules) .localOnly
  have hagenda : (p.collected (u.withPropagation .localOnly) (.reachability u.program)
      (s.after d.query seeds) d t).agenda = p.agenda.pushAll [] := rfl
  rw [Progress.afterSolve_eq, Progress.afterSolve_eq, absorb_of_idle hidle,
    Progress.foldl_absorb_congr hcollected]
  exact foldl_matched_rescan hprogram (fun f t h => (hsettled f t h).mono hagenda) _ _ _

theorem queue_congr {p q : Progress} (h : q.withoutRescans = p.withoutRescans) :
    q.agenda.queue = p.agenda.queue :=
  congrArg (·.agenda.queue) h

theorem capReached_congr {p q : Progress} (h : q.withoutRescans = p.withoutRescans) :
    q.capReached (u.withPropagation (.globalRescan rules)).config =
      p.capReached (u.withPropagation .localOnly).config := by
  have hcap : q.withoutRescans.capReached u.config = p.withoutRescans.capReached u.config := by
    rw [h]
  exact hcap

/-- The run of the rescanning policy makes the trace of the local one. -/
theorem Trace.rescan (hidle : ∀ rule ∈ rules, rule.IdleOn u.program) (hp : u.program.WellFormed)
    {fuel : Nat} {s : Session} {p q : Progress} {solved : List (Solved Session)}
    {calls : List BackendCall} {result : Except RunError Report}
    (h : (u.withPropagation .localOnly).Trace (.reachability u.program) fuel s p solved calls
      result)
    (hs : s.Ready u.program u.config.solverOptions)
    (hsettled : (u.withPropagation .localOnly).Settled s p)
    (hsame : q.withoutRescans = p.withoutRescans) :
    ∃ other, (u.withPropagation (.globalRescan rules)).Trace (.reachability u.program) fuel s q
        solved calls other ∧
      other.map Report.withoutRescans = result.map Report.withoutRescans := by
  induction h generalizing q with
  | @done fuel s p queue =>
    refine ⟨_, .done ((queue_congr hsame).trans queue), ?_⟩
    exact congrArg (fun r => Except.ok (Progress.report r)) hsame
  | @capped fuel s p d rest queue cap =>
    refine ⟨_, .capped ((queue_congr hsame).trans queue) ((capReached_congr hsame).trans cap), ?_⟩
    exact congrArg (fun r => Except.ok (Progress.report (Progress.skipRest r))) hsame
  | @exhausted s p d rest queue cap =>
    exact ⟨_, .exhausted ((queue_congr hsame).trans queue) ((capReached_congr hsame).trans cap),
      rfl⟩
  | @failed fuel s p d rest e queue cap fails =>
    exact ⟨_, .failed ((queue_congr hsame).trans queue) ((capReached_congr hsame).trans cap) fails,
      rfl⟩
  | @solved fuel s s' p d rest t later calls result queue cap solves next ih =>
    have hpopped : (q.popped rest).withoutRescans = (p.popped rest).withoutRescans :=
      congrArg (·.popped rest) hsame
    have hsettledPopped : (u.withPropagation .localOnly).Settled s (p.popped rest) := hsettled
    obtain ⟨hready, seeds, rfl, rfl⟩ := hs.solve hp solves
    have hnext := afterSolve_rescan hidle hs.program hsettledPopped hpopped d seeds
      (s.storeOf d.query seeds).table
    obtain ⟨other, htrace, hresult⟩ := ih hready
      (hsettledPopped.afterSolve (specification_of_idle idle_local) d seeds) hnext
    exact ⟨other, .solved ((queue_congr hsame).trans queue) ((capReached_congr hsame).trans cap)
      solves htrace, hresult⟩

theorem validate_rescan (u : Setup) (rules : List ConstructorRule) :
    (u.withPropagation (.globalRescan rules)).config.validate =
      (u.withPropagation .localOnly).config.validate.bind fun _ => Config.checkRules rules := by
  unfold Config.validate withPropagation
  cases Config.checkLimit .solverTimeout u.config.solverTimeoutMs with
  | error e => rfl
  | ok =>
    cases Config.checkLimit .callDepth u.config.maxCallDepth with
    | error e => rfl
    | ok => rfl

theorem nameless_of_checkRules {e : ConfigError} (h : Config.checkRules rules = .error e) :
    ∃ rule ∈ rules, (rule.declaringClass.isEmpty || rule.methodName.isEmpty) = true ∧
      e = .emptyRule rule := by
  unfold Config.checkRules at h
  split at h
  · next rule hfind =>
    cases h
    have hnameless := List.find?_some hfind
    exact ⟨rule, List.mem_of_find?_eq_some hfind, hnameless, rfl⟩
  · cases h

/-- Where no constructor rule ever fires, an analysis that rescans all active tables makes the
calls and solves of the local one, session by session, and reports the same but for the counters
that rescans raise. Only where a rule lacks a name, which makes the configuration invalid, is it
refused instead, before any call. -/
theorem analyze_rescan_eq_local {parts : List (Signature × List Instruction)}
    (hp : Program.build parts = .ok u.program) (hidle : ∀ rule ∈ rules, rule.IdleOn u.program)
    (initial : Query) :
    let near := (u.withPropagation .localOnly).analyze initial
    let far := (u.withPropagation (.globalRescan rules)).analyze initial
    (far.calls = near.calls ∧ far.solved = near.solved ∧
        far.result.map Report.withoutRescans = near.result.map Report.withoutRescans) ∨
      ∃ rule ∈ rules, (rule.declaringClass.isEmpty || rule.methodName.isEmpty) = true ∧
        far = ⟨[], [], .error (.config (.emptyRule rule))⟩ := by
  intro near far
  have hvalidate := validate_rescan u rules
  cases hv : (u.withPropagation .localOnly).config.validate with
  | error e =>
    rw [hv] at hvalidate
    have hnear : near = ⟨[], [], .error (.config e)⟩ := run_of_refused hv
    have hfar : far = ⟨[], [], .error (.config e)⟩ := run_of_refused hvalidate
    rw [hnear, hfar]
    exact .inl ⟨rfl, rfl, rfl⟩
  | ok =>
    rw [hv] at hvalidate
    cases hrules : Config.checkRules rules with
    | error e =>
      obtain ⟨rule, hrule, hnameless, rfl⟩ := nameless_of_checkRules hrules
      exact .inr ⟨rule, hrule, hnameless, run_of_refused (hvalidate.trans hrules)⟩
    | ok =>
      left
      have hvalid := hvalidate.trans hrules
      have hsettled : (u.withPropagation .localOnly).Settled u.opened
          (.start u.config.visitedPolicy initial) := fun f t h => (nomatch h)
      obtain ⟨calls, hcalls, htrace⟩ := trace_analyze hv initial
      obtain ⟨result, hother, hresult⟩ := htrace.rescan hidle (Program.wellFormed_of_build hp)
        (ready_opened u) hsettled rfl
      have hfar : far = ⟨.start u.config.solverOptions :: calls ++ [.close], near.solved, result⟩ :=
        hother.run_eq hvalid (start_opened hvalid)
      rw [hfar]
      exact ⟨hcalls.symm, rfl, hresult⟩

theorem idleOn_relayProgram : ConstructorRule.standard.IdleOn Session.relayProgram := by
  have hclasses : ∀ s ∈ Session.relayProgram.statements.toList, ∀ call ∈ s.call?,
      call.target.declaringClass? ≠ some ConstructorRule.standard.declaringClass := by decide
  intro s hs call hcall value
  unfold ConstructorRule.applies
  rw [decide_eq_false (hclasses s hs call hcall), Bool.false_and, Bool.false_and]

/-- The rescanning run matches five tables again and finds nothing new. -/
theorem analyze_rescan_eq_local_exchange :
    let u := exchangeSetup .localOnly .queryInScope
    let near := (u.withPropagation .localOnly).analyze (.backward Session.relayResult)
    let far := (u.withPropagation (.globalRescan [.standard])).analyze
      (.backward Session.relayResult)
    near.solved.length = 5 ∧
      (near.result.toOption.map fun report => report.statistics.rescannedTables) = some 0 ∧
      (far.result.toOption.map fun report => report.statistics.rescannedTables) = some 5 ∧
      far.calls = near.calls ∧ far.solved = near.solved ∧
      far.result.map Report.withoutRescans = near.result.map Report.withoutRescans := by
  intro u near far
  have hp : Program.build Session.relayParts = .ok u.program := rfl
  have hidle : ∀ rule ∈ [ConstructorRule.standard], rule.IdleOn u.program := by
    intro rule hrule
    obtain rfl := List.mem_singleton.1 hrule
    exact idleOn_relayProgram
  refine ⟨by decide +kernel, by decide +kernel, by decide +kernel, ?_⟩
  rcases analyze_rescan_eq_local hp hidle (.backward Session.relayResult) with
    hsame | ⟨rule, hrule, hnameless, -⟩
  · exact hsame
  · obtain rfl := List.mem_singleton.1 hrule
    exact absurd hnameless (by decide)

end Setup

end GuidedDataflow
