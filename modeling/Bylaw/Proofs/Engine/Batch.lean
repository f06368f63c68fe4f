import Bylaw.Engine
import Bylaw.Handlers
import Bylaw.Proofs.Run.Dependence
import Mathlib.Algebra.GroupWithZero.Nat
import Mathlib.Data.List.Induction

/-! What a batch comes to. Its records share a reply, so a record after one whose run has ended is
run under a reply that is terminated already: then a handler's terminal status ends nothing. Main
statement: a batch is processed like its records one by one exactly if this makes no difference to
any of them. -/

namespace Bylaw

variable {σ : Type}

namespace Run

/-- What the run of a record leaves in a batch. -/
def kept (run : Run σ) : List Json := if run.draft.excluded then [] else [run.draft.record]

/-- How many records the run of one excludes. -/
def dropped (run : Run σ) : Nat := if run.draft.excluded then 1 else 0

/-- Whether a run can go on: no handler was missing. -/
def IsKnown (run : Run σ) : Prop := ∀ name, run.verdict ≠ .unknown name

/-- The run of a record in a fresh session whose reply is terminated already or not. -/
def under (ctx : Context σ) (rules : List Rule) (world : σ) (ended : Bool) (record : Json) :
    Run σ :=
  ofRecord ctx rules record { world, reply := { terminated := ended } }

/-- The runs of records one after the other. The first begins with a reply that is terminated or
not, each other one with the reply as the run before it leaves it. -/
def inTurn (ctx : Context σ) (rules : List Rule) (world : σ) : Bool → List Json → List (Run σ)
  | _, [] => []
  | ended, record :: rest =>
    let run := under ctx rules world ended record
    run :: inTurn ctx rules world run.session.reply.terminated rest

/-- Whether the reply is terminated when records were run one after the other. -/
def endedAfter (ctx : Context σ) (rules : List Rule) (world : σ) : Bool → List Json → Bool
  | ended, [] => ended
  | ended, record :: rest =>
    endedAfter ctx rules world (under ctx rules world ended record).session.reply.terminated rest

variable {ctx : Context σ} {rules : List Rule} {world : σ}

theorem inTurn_append (ended : Bool) (records more : List Json) :
    inTurn ctx rules world ended (records ++ more) =
      inTurn ctx rules world ended records ++
        inTurn ctx rules world (endedAfter ctx rules world ended records) more := by
  induction records generalizing ended with
  | nil => rfl
  | cons record rest ih => simp only [List.cons_append, inTurn, endedAfter, ih]

theorem under_true_terminated (record : Json) :
    (under ctx rules world true record).session.reply.terminated = true :=
  ofRules_terminated ctx rules { record } rfl

theorem endedAfter_true (records : List Json) : endedAfter ctx rules world true records = true := by
  induction records with
  | nil => rfl
  | cons record rest ih => simpa only [endedAfter, under_true_terminated] using ih

/-- The reply is terminated after records one of which ends its run by itself. -/
theorem endedAfter_false (records : List Json) :
    endedAfter ctx rules world false records =
      records.any fun r => (under ctx rules world false r).session.reply.terminated := by
  induction records with
  | nil => rfl
  | cons record rest ih =>
    rw [endedAfter, List.any_cons]
    cases (under ctx rules world false record).session.reply.terminated with
    | true => rw [endedAfter_true, Bool.true_or]
    | false => rw [ih, Bool.false_or]

end Run

theorem Run.isKnown_or (run : Run σ) : run.IsKnown ∨ ∃ name, run.verdict = .unknown name := by
  cases h : run.verdict with
  | proceed => left; intro name; simp [h]
  | terminate => left; intro name; simp [h]
  | unknown name => exact .inr ⟨name, rfl⟩

namespace Batch

variable {ctx : Context σ} {rules : List Rule}

theorem ofRecords_cons_of_known {stops : Bool} {record : Json} {rest : List Json}
    {s : Session σ} (h : (Run.ofRecord ctx rules record s).IsKnown) :
    ofRecords ctx rules stops (record :: rest) s = prepend (Run.ofRecord ctx rules record s)
      (afterRun ctx rules stops rest (Run.ofRecord ctx rules record s)) := by
  rw [ofRecords_cons]
  split
  · rename_i name hv
    exact absurd hv (h name)
  · rfl

theorem ofRecords_cons_of_unknown {record : Json} {s : Session σ} {name : String}
    (h : (Run.ofRecord ctx rules record s).verdict = .unknown name) (rest : List Json) :
    (ofRecords ctx rules false (record :: rest) s).unknown? = some name := by
  simp only [ofRecords, h]

theorem ofRecords_inTurn (ctx : Context σ) (rules : List Rule) (hs : ctx.catalog.Stateless)
    (world : σ) (records : List Json) (s : Session σ) :
    let runs := Run.inTurn ctx rules world s.reply.terminated records
    let batch := ofRecords ctx rules false records s
    (batch.unknown? = none ↔ ∀ run ∈ runs, run.IsKnown) ∧
      (batch.unknown? = none → batch.records = runs.flatMap Run.kept ∧
        batch.excluded = (runs.map Run.dropped).sum ∧
        batch.matched = (runs.map (·.matched)).sum) := by
  induction records generalizing s with
  | nil => simp [ofRecords, Run.inTurn]
  | cons record rest ih =>
    -- A run hangs on what went before it only by whether the reply is terminated.
    obtain ⟨ha, hm⟩ := Run.ofRules_agrees hs rules { record } (s := s)
      (t := { world, reply := { terminated := s.reply.terminated } }) rfl
    obtain ⟨hiff, hparts⟩ := ih (Run.ofRecord ctx rules record s).session
    have hterm : (Run.ofRecord ctx rules record s).session.reply.terminated =
        (Run.under ctx rules world s.reply.terminated record).session.reply.terminated :=
      ha.terminated
    have hknown : (Run.ofRecord ctx rules record s).IsKnown ↔
        (Run.under ctx rules world s.reply.terminated record).IsKnown := by
      simp only [Run.IsKnown, Run.under, Run.ofRecord, ha.verdict]
    simp only [Run.inTurn, List.mem_cons, forall_eq_or_imp, List.flatMap_cons, List.map_cons,
      List.sum_cons, ← hknown, ← hterm]
    rcases (Run.ofRecord ctx rules record s).isKnown_or with hk | ⟨name, hv⟩
    · rw [ofRecords_cons_of_known hk, afterRun_false]
      refine ⟨⟨fun h => ⟨hk, hiff.mp h⟩, fun h => hiff.mpr h.2⟩, fun h => ?_⟩
      obtain ⟨hr, he, hc⟩ := hparts h
      have hd : (Run.ofRecord ctx rules record s).draft =
        (Run.under ctx rules world s.reply.terminated record).draft := ha.draft
      have hm : (Run.ofRecord ctx rules record s).matched =
        (Run.under ctx rules world s.reply.terminated record).matched := hm
      simp only [prepend, hr, he, hc, Run.kept, Run.dropped, ← hd, ← hm]
      refine ⟨?_, Nat.add_comm _ _, Nat.add_comm _ _⟩
      split <;> rfl
    · have hu := ofRecords_cons_of_unknown hv rest
      simp only [hu, reduceCtorEq, false_iff, false_implies, and_true]
      exact fun h => h.1 name hv

end Batch

namespace Engine

/-- What a record comes to by itself. -/
def alone (engine : Engine σ) (occasion : Occasion) (world : σ) (record : Json) :
    Except EngineError Outcome :=
  (engine.process occasion record world).outcome

/-- A batch comes to what its records come to one by one: the data of those that are not excluded,
in order, and the sums of their counts. -/
def Independent (engine : Engine σ) (occasion : Occasion) (world : σ) (records : List Json) :
    Prop :=
  ∃ outcomes : List Outcome, records.map (engine.alone occasion world) = outcomes.map .ok ∧
    ∃ o, (engine.process occasion (.arr records) world).outcome = .ok o ∧
      o.data = .arr ((outcomes.filter fun o => !o.isExcluded).map Outcome.data) ∧
      o.matched = (outcomes.map Outcome.matched).sum ∧
      o.excluded = (outcomes.map Outcome.excluded).sum

/-- Whether a record ends its run by itself. -/
def Ends (engine : Engine σ) (occasion : Occasion) (world : σ) (record : Json) : Prop :=
  ∃ o, engine.alone occasion world record = .ok o ∧ o.isTerminated = true

/-- Under a reply that is terminated already a record comes to the same as alone: it is excluded or
not, its rules match as often, and if it is kept it has the same data. -/
def Indifferent (engine : Engine σ) (occasion : Occasion) (world : σ) (record : Json) : Prop :=
  let run := Run.under (engine.context occasion) (engine.rulesFor occasion) world true record
  ∃ o, engine.alone occasion world record = .ok o ∧ run.IsKnown ∧
    run.draft.excluded = o.isExcluded ∧ (o.isExcluded = false → run.draft.record = o.data) ∧
    run.matched = o.matched

end Engine

namespace Run

/-- What the run of a single record comes to. -/
def outcome (run : Run σ) : Outcome :=
  ⟨run.draft.record, run.session.reply, run.dropped, run.matched⟩

@[simp] theorem data_outcome (run : Run σ) : run.outcome.data = run.draft.record := rfl

@[simp] theorem isExcluded_outcome (run : Run σ) :
    run.outcome.isExcluded = run.draft.excluded := by
  cases h : run.draft.excluded <;> simp [outcome, dropped, Outcome.isExcluded, h]

/-- The data of runs whose records are not excluded is what they leave in a batch. -/
theorem map_data_outcome (runs : List (Run σ)) :
    ((runs.map outcome).filter fun o => !o.isExcluded).map Outcome.data = runs.flatMap kept := by
  induction runs with
  | nil => rfl
  | cons run rest ih => cases he : run.draft.excluded <;> simp [he, ih, kept]

end Run

namespace Engine

variable {engine : Engine σ} {occasion : Occasion} {world : σ}

theorem process_single {record : Json} (ha : record.isArray = false) :
    engine.process occasion record world = engine.processRecord occasion record world := by
  unfold process
  split
  · rename_i hempty
    rw [List.isEmpty_iff] at hempty
    simp [processRecord, hempty, Run.ofRecord, Run.ofRules, finish]
  · cases record with
    | arr items => simp [Json.isArray] at ha
    | _ => rfl

theorem alone_eq_ok_iff {record : Json} (ha : record.isArray = false) (o : Outcome) :
    engine.alone occasion world record = .ok o ↔
      let run := Run.under (engine.context occasion) (engine.rulesFor occasion) world false record
      run.IsKnown ∧ run.outcome = o := by
  have hrun : Run.ofRecord (engine.context occasion) (engine.rulesFor occasion) record { world } =
    Run.under (engine.context occasion) (engine.rulesFor occasion) world false record := rfl
  simp only [alone, process_single ha, processRecord, hrun, finish]
  rcases (Run.under (engine.context occasion) (engine.rulesFor occasion) world false
    record).isKnown_or with hk | ⟨name, hv⟩
  · split
    · rename_i name hu
      split at hu
      · rename_i hv
        exact absurd hv (hk _)
      · simp at hu
    · simp only [hk, true_and, Except.ok.injEq]
      exact Iff.rfl
  · simp [hv, Run.IsKnown]

theorem ofRecords_nil_rules (ctx : Context σ) (stops : Bool) (records : List Json)
    (s : Session σ) : Batch.ofRecords ctx [] stops records s = ⟨records, 0, 0, s, none⟩ := by
  induction records with
  | nil => rfl
  | cons record rest ih =>
    simp [Batch.ofRecords, Run.ofRecord, Run.ofRules, Batch.prepend, ih]

theorem process_arr (records : List Json) :
    (engine.process occasion (.arr records) world).outcome =
      (engine.processBatch occasion records world).outcome := by
  unfold process
  split
  · rename_i hempty
    rw [List.isEmpty_iff] at hempty
    simp [processBatch, hempty, ofRecords_nil_rules, finish]
  · rfl

theorem process_arr_parts (hc : engine.config.stopsBatch = false)
    (hs : engine.catalog.Stateless) (records kept : List Json) (excluded matched : Nat) :
    (∃ o, (engine.process occasion (.arr records) world).outcome = .ok o ∧ o.data = .arr kept ∧
        o.matched = matched ∧ o.excluded = excluded) ↔
      let runs :=
        Run.inTurn (engine.context occasion) (engine.rulesFor occasion) world false records
      (∀ run ∈ runs, run.IsKnown) ∧ runs.flatMap Run.kept = kept ∧
        (runs.map (·.matched)).sum = matched ∧ (runs.map Run.dropped).sum = excluded := by
  obtain ⟨hiff, hparts⟩ := Batch.ofRecords_inTurn (engine.context occasion)
    (engine.rulesFor occasion) hs world records { world }
  rw [process_arr]
  simp only [processBatch, hc, finish]
  cases hu : (Batch.ofRecords (engine.context occasion) (engine.rulesFor occasion) false records
    { world }).unknown? with
  | none =>
    obtain ⟨hr, he, hm⟩ := hparts hu
    simp only [Except.ok.injEq, exists_eq_left', Json.arr.injEq, hr, he, hm]
    exact (and_iff_right (hiff.mp hu)).symm
  | some name =>
    have hno : ¬∀ run ∈ Run.inTurn (engine.context occasion) (engine.rulesFor occasion) world false
        records, run.IsKnown := fun h => by simp [hiff.mpr h] at hu
    simp [hno]

end Engine

namespace Run

variable {ctx : Context σ} {rules : List Rule} {world : σ}

/-- Two runs that leave the same in a batch. -/
structure Alike (run other : Run σ) : Prop where
  isKnown : run.IsKnown
  kept : run.kept = other.kept
  dropped : run.dropped = other.dropped
  matched : run.matched = other.matched

theorem Alike.sums {runs others : List (Run σ)} (h : List.Forall₂ Alike runs others) :
    (∀ run ∈ runs, run.IsKnown) ∧ runs.flatMap Run.kept = others.flatMap Run.kept ∧
      (runs.map (·.matched)).sum = (others.map (·.matched)).sum ∧
      (runs.map Run.dropped).sum = (others.map Run.dropped).sum := by
  induction h with
  | nil => simp
  | cons hhead _ ih =>
    obtain ⟨hk, hl, hm, hd⟩ := ih
    simp only [List.mem_cons, forall_eq_or_imp, List.flatMap_cons, List.map_cons, List.sum_cons,
      hhead.kept, hhead.dropped, hhead.matched, hl, hm, hd, and_true]
    exact ⟨hhead.isKnown, hk⟩

/-- Records that come to the same under a terminated reply are run in turn as they are alone. -/
theorem inTurn_alike {records : List Json} (ended : Bool)
    (hk : ∀ r ∈ records, (under ctx rules world false r).IsKnown)
    (hended : ended = true → ∀ r ∈ records,
      Alike (under ctx rules world true r) (under ctx rules world false r))
    (hlater : records.Pairwise fun r later =>
      (under ctx rules world false r).session.reply.terminated = true →
        Alike (under ctx rules world true later) (under ctx rules world false later)) :
    List.Forall₂ Alike (inTurn ctx rules world ended records)
      (records.map (under ctx rules world false)) := by
  induction records generalizing ended with
  | nil => exact .nil
  | cons record rest ih =>
    rw [List.pairwise_cons] at hlater
    have hrest := fun r hr => hk r (List.mem_cons_of_mem record hr)
    refine .cons ?_ (ih _ hrest ?_ hlater.2)
    · cases ended with
      | true => exact hended rfl record List.mem_cons_self
      | false => exact ⟨hk record List.mem_cons_self, rfl, rfl, rfl⟩
    · intro hterm r hr
      cases ended with
      | true => exact hended rfl r (List.mem_cons_of_mem record hr)
      | false => exact hlater.1 r hr hterm

end Run

namespace Engine

variable {engine : Engine σ} {occasion : Occasion} {world : σ} {records : List Json}

theorem map_alone_eq_iff (ha : ∀ r ∈ records, r.isArray = false)
    (hk : ∀ r ∈ records, ∃ o, engine.alone occasion world r = .ok o) (outcomes : List Outcome) :
    records.map (engine.alone occasion world) = outcomes.map .ok ↔
      outcomes = records.map fun r =>
        (Run.under (engine.context occasion) (engine.rulesFor occasion) world false r).outcome := by
  induction records generalizing outcomes with
  | nil => simp
  | cons record rest ih =>
    obtain ⟨o, ho⟩ := hk record List.mem_cons_self
    have hrun := ((alone_eq_ok_iff (ha record List.mem_cons_self) o).mp ho).2
    have ih := ih (fun r hr => ha r (List.mem_cons_of_mem record hr))
      (fun r hr => hk r (List.mem_cons_of_mem record hr))
    cases outcomes with
    | nil => simp
    | cons first others =>
      simp only [List.map_cons, ho, hrun, List.cons.injEq, Except.ok.injEq, ih, eq_comm (a := o)]

/-- A batch is independent if its runs in turn leave together what the runs of its records by
themselves leave. -/
theorem independent_iff_inTurn (hc : engine.config.stopsBatch = false)
    (hs : engine.catalog.Stateless) (ha : ∀ r ∈ records, r.isArray = false)
    (hk : ∀ r ∈ records, ∃ o, engine.alone occasion world r = .ok o) :
    engine.Independent occasion world records ↔
      let runs :=
        Run.inTurn (engine.context occasion) (engine.rulesFor occasion) world false records
      let singles := records.map
        (Run.under (engine.context occasion) (engine.rulesFor occasion) world false)
      (∀ run ∈ runs, run.IsKnown) ∧ runs.flatMap Run.kept = singles.flatMap Run.kept ∧
        (runs.map (·.matched)).sum = (singles.map (·.matched)).sum ∧
        (runs.map Run.dropped).sum = (singles.map Run.dropped).sum := by
  have houtcomes : (records.map fun r => (Run.under (engine.context occasion)
      (engine.rulesFor occasion) world false r).outcome) = (records.map (Run.under
        (engine.context occasion) (engine.rulesFor occasion) world false)).map Run.outcome := by
    rw [List.map_map]; rfl
  simp only [Independent, map_alone_eq_iff ha hk, exists_eq_left, process_arr_parts hc hs,
    houtcomes, Run.map_data_outcome]
  simp only [List.map_map]
  rfl

/-- A record is indifferent if its run under a terminated reply is like its run alone. -/
theorem indifferent_iff_alike {record : Json} (ha : record.isArray = false)
    (hk : ∃ o, engine.alone occasion world record = .ok o) :
    engine.Indifferent occasion world record ↔
      Run.Alike
        (Run.under (engine.context occasion) (engine.rulesFor occasion) world true record)
        (Run.under (engine.context occasion) (engine.rulesFor occasion) world false record) := by
  obtain ⟨o, ho⟩ := hk
  obtain ⟨-, hrun⟩ := (alone_eq_ok_iff ha o).mp ho
  simp only [Indifferent, ho, Except.ok.injEq, exists_eq_left', ← hrun, Run.isExcluded_outcome,
    Run.data_outcome]
  constructor
  · rintro ⟨hknown, he, hr, hm⟩
    refine ⟨hknown, ?_, ?_, hm⟩
    · cases hx : (Run.under (engine.context occasion) (engine.rulesFor occasion) world false
        record).draft.excluded with
      | true => simp [Run.kept, he, hx]
      | false => simp [Run.kept, he, hx, hr hx]
    · simp [Run.dropped, he]
  · rintro ⟨hknown, hkept, hd, hm⟩
    have he : (Run.under (engine.context occasion) (engine.rulesFor occasion) world true
        record).draft.excluded =
        (Run.under (engine.context occasion) (engine.rulesFor occasion) world false
          record).draft.excluded := by
      rw [← Run.isExcluded_outcome, ← Run.isExcluded_outcome, Outcome.isExcluded,
        Outcome.isExcluded, Run.outcome, Run.outcome, hd]
    refine ⟨hknown, he, fun hx => ?_, hm⟩
    simpa [Run.kept, he, hx] using hkept

theorem ends_iff {record : Json} (ha : record.isArray = false)
    (hk : ∃ o, engine.alone occasion world record = .ok o) :
    engine.Ends occasion world record ↔
      (Run.under (engine.context occasion) (engine.rulesFor occasion) world false
        record).session.reply.terminated = true := by
  obtain ⟨o, ho⟩ := hk
  obtain ⟨-, rfl⟩ := (alone_eq_ok_iff ha o).mp ho
  simp only [Ends, ho, Except.ok.injEq, exists_eq_left']
  rfl

/-- In a batch all of whose beginnings are independent, a record after one that ends its run comes
to the same under a terminated reply as alone. -/
theorem pairwise_of_independent (hc : engine.config.stopsBatch = false)
    (hs : engine.catalog.Stateless) (ha : ∀ r ∈ records, r.isArray = false)
    (hk : ∀ r ∈ records, ∃ o, engine.alone occasion world r = .ok o)
    (h : ∀ first, first <+: records → engine.Independent occasion world first) :
    records.Pairwise fun r later =>
      engine.Ends occasion world r → engine.Indifferent occasion world later := by
  -- The last record is compared by what it adds to the batch of those before it.
  induction records using List.reverseRecOn with
  | nil => exact .nil
  | append_singleton before last ih =>
    have hmem {r : Json} (hr : r ∈ before) : r ∈ before ++ [last] := List.mem_append_left _ hr
    have hlast : last ∈ before ++ [last] := List.mem_append_right _ (List.mem_singleton_self last)
    have hprefix : before <+: before ++ [last] := List.prefix_append before [last]
    refine List.pairwise_append.mpr ⟨ih (fun r hr => ha r (hmem hr)) (fun r hr => hk r (hmem hr))
      fun first hf => h first (hf.trans hprefix), List.pairwise_singleton _ _, ?_⟩
    intro r hr later hlater hends
    obtain rfl : later = last := List.mem_singleton.mp hlater
    have hended : Run.endedAfter (engine.context occasion) (engine.rulesFor occasion) world false
        before = true := by
      rw [Run.endedAfter_false, List.any_eq_true]
      exact ⟨r, hr, (ends_iff (ha r (hmem hr)) (hk r (hmem hr))).mp hends⟩
    have hbefore := (independent_iff_inTurn hc hs (fun r hr => ha r (hmem hr))
      (fun r hr => hk r (hmem hr))).mp (h before hprefix)
    have hall := (independent_iff_inTurn hc hs ha hk).mp (h _ List.prefix_rfl)
    rw [indifferent_iff_alike (ha later hlast) (hk later hlast)]
    simp only [Run.inTurn_append, hended, Run.inTurn, List.map_append, List.flatMap_append,
      List.sum_append, hbefore.2.1, hbefore.2.2.1, hbefore.2.2.2, List.append_cancel_left_eq,
      Nat.add_left_cancel_iff, List.mem_append, List.map_cons, List.map_nil,
      List.flatMap_cons, List.flatMap_nil, List.append_nil, List.sum_cons, List.sum_nil,
      Nat.add_zero] at hall
    exact ⟨hall.1 _ (.inr (List.mem_singleton_self _)), hall.2.1, hall.2.2.2, hall.2.2.1⟩

/-- Records of a batch that is not stopped are processed as each is alone, in this batch and all its
beginnings, exactly if every record after one that ends its run comes to the same under a
terminated reply. -/
theorem independent_iff_indifferent (hc : engine.config.stopsBatch = false)
    (hs : engine.catalog.Stateless) (ha : ∀ r ∈ records, r.isArray = false)
    (hk : ∀ r ∈ records, ∃ o, engine.alone occasion world r = .ok o) :
    (∀ first, first <+: records → engine.Independent occasion world first) ↔
      records.Pairwise fun r later =>
        engine.Ends occasion world r → engine.Indifferent occasion world later := by
  refine ⟨pairwise_of_independent hc hs ha hk, fun h first hf => ?_⟩
  have ha' := fun r hr => ha r (hf.subset hr)
  have hk' := fun r hr => hk r (hf.subset hr)
  rw [independent_iff_inTurn hc hs ha' hk']
  refine Run.Alike.sums (Run.inTurn_alike false ?_ (by simp) ?_)
  · intro r hr
    obtain ⟨o, ho⟩ := hk' r hr
    exact ((alone_eq_ok_iff (ha' r hr) o).mp ho).1
  · refine (h.sublist hf.sublist).imp_of_mem fun {r later} hr hl hrl hterm => ?_
    rw [← indifferent_iff_alike (ha' later hl) (hk' later hl)]
    exact hrl ((ends_iff (ha' r hr) (hk' r hr)).mpr hterm)

/-- An engine whose one rule has a handler end the run of a record before a field is set. -/
def answering : Engine Unit where
  catalog := ⟨[("respond", Handlers.respond)]⟩
  rules := .ofRules [{
    entity := "leads"
    events := [.get]
    condition := none
    actions := [.invoke "respond" [.ofNat 1000],
      .update ⟨["seen"], by decide, by decide⟩ (.literal (.bool true))]
    line := 1 }]

/-- The reading of leads on the first of January 1970. -/
def readingLeads : Occasion := ⟨.get, "leads", {}, ⟨0, by decide, by decide⟩⟩

theorem answering_stateless : answering.catalog.Stateless := by
  intro name handler hf inv world other
  cases world; cases other; rfl

theorem independent_iff_indifferent_leads :
    answering.config.stopsBatch = false ∧ answering.catalog.Stateless ∧
      (∀ r ∈ [Json.obj [], Json.obj []], r.isArray = false) ∧
      (∀ r ∈ [Json.obj [], Json.obj []], ∃ o, answering.alone readingLeads () r = .ok o) ∧
      ((∀ first, first <+: [Json.obj [], Json.obj []] →
          answering.Independent readingLeads () first) ↔
        [Json.obj [], Json.obj []].Pairwise fun r later =>
          answering.Ends readingLeads () r → answering.Indifferent readingLeads () later) := by
  have ha : ∀ r ∈ [Json.obj [], Json.obj []], r.isArray = false := by simp [Json.isArray]
  have hk : ∀ r ∈ [Json.obj [], Json.obj []], ∃ o, answering.alone readingLeads () r = .ok o := by
    intro r hr
    obtain rfl : r = .obj [] := by simpa using hr
    exact ⟨⟨.obj [], { terminated := true }, 0, 1⟩, rfl⟩
  exact ⟨rfl, answering_stateless, ha, hk,
    independent_iff_indifferent rfl answering_stateless ha hk⟩

/-- The first record ends its run before the field is set, and the second one does not. -/
theorem answering_not_independent :
    ¬answering.Independent readingLeads () [.obj [], .obj []] := by
  rintro ⟨outcomes, hsingle, o, ho, hdata, -, -⟩
  have hone : answering.alone readingLeads () (.obj []) =
    .ok ⟨.obj [], { terminated := true }, 0, 1⟩ := rfl
  have hboth : (answering.process readingLeads (.arr [.obj [], .obj []]) ()).outcome =
    .ok ⟨.arr [.obj [], .obj [("seen", .bool true)]], { terminated := true }, 0, 2⟩ := rfl
  rw [hboth, Except.ok.injEq] at ho
  subst ho
  match outcomes, hsingle with
  | [first, second], hsingle =>
    simp only [List.map_cons, hone, List.cons.injEq, Except.ok.injEq] at hsingle
    obtain ⟨rfl, rfl, -⟩ := hsingle
    simp [Outcome.isExcluded] at hdata

end Engine

end Bylaw
