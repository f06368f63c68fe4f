import Bylaw.Proofs.Engine.Batch
import Bylaw.Proofs.Run.Ending

/-! Batches that the end of a record stops. Main statement: the records up to the first one that by
itself ends its run come to what they come to alone, the others stay as they are, and no call is
made for them. -/

namespace Bylaw

variable {σ : Type}

/-- The first index is the same for conditions that agree up to it. -/
theorem findIdx_congr_take {α : Type} {p q : α → Bool} {l : List α}
    (h : ∀ x ∈ l.take (l.findIdx p + 1), p x = q x) : l.findIdx p = l.findIdx q := by
  induction l with
  | nil => rfl
  | cons x rest ih =>
    have hx : p x = q x := h x (by simp)
    rw [List.findIdx_cons, List.findIdx_cons, ← hx]
    cases hp : p x with
    | true => rfl
    | false =>
      have hrest : rest.findIdx p = rest.findIdx q :=
        ih fun y hy => h y (by simpa [List.findIdx_cons, hp] using .inr hy)
      simp [hrest]

theorem any_take_findIdx {α : Type} (p : α → Bool) (l : List α) :
    (l.take (l.findIdx p + 1)).any p = true ↔ ∃ x, l[l.findIdx p]? = some x ∧ p x = true := by
  rw [List.any_eq_true]
  constructor
  · rintro ⟨x, hx, hp⟩
    have hlt : l.findIdx p < l.length :=
      List.findIdx_lt_length_of_exists ⟨x, List.mem_of_mem_take hx, hp⟩
    exact ⟨l[l.findIdx p], List.getElem?_eq_getElem hlt, List.findIdx_getElem⟩
  · rintro ⟨x, hx, hp⟩
    have hmem : (l.take (l.findIdx p + 1))[l.findIdx p]? = some x := by
      rw [List.getElem?_take_of_lt (Nat.lt_succ_self _), hx]
    exact ⟨x, List.mem_of_getElem? hmem, hp⟩

namespace Run

theorem length_kept_add_dropped (run : Run σ) : run.kept.length + run.dropped = 1 := by
  cases h : run.draft.excluded <;> simp [kept, dropped, h]

/-- Every run leaves its record in the batch or excludes it. -/
theorem length_flatMap_kept_add_dropped (runs : List (Run σ)) :
    (runs.flatMap kept).length + (runs.map dropped).sum = runs.length := by
  induction runs with
  | nil => rfl
  | cons run rest ih =>
    have hrun := run.length_kept_add_dropped
    simp only [List.flatMap_cons, List.length_append, List.map_cons, List.sum_cons,
      List.length_cons]
    omega

theorem map_matched_outcome (runs : List (Run σ)) :
    (runs.map outcome).map Outcome.matched = runs.map (·.matched) := by
  rw [List.map_map]
  rfl

theorem map_excluded_outcome (runs : List (Run σ)) :
    (runs.map outcome).map Outcome.excluded = runs.map dropped := by
  rw [List.map_map]
  rfl

end Run

namespace Batch

/-- A batch is made of runs that each began like one by itself, and of records that were not
run. -/
structure MadeOf (batch : Batch σ) (s : Session σ) (runs : List (Run σ)) (rest : List Json) :
    Prop where
  isKnown : batch.unknown? = none
  records : batch.records = runs.flatMap Run.kept ++ rest
  excluded : batch.excluded = (runs.map Run.dropped).sum
  matched : batch.matched = (runs.map (·.matched)).sum
  calls : batch.session.calls = s.calls ++ runs.flatMap (·.session.calls)
  detached : batch.session.detached = s.detached ++ runs.flatMap (·.session.detached)
  terminated : batch.session.reply.terminated =
    (s.reply.terminated || runs.any fun run => run.session.reply.terminated)

/-- One more run before a batch, that came to the same as a run by itself. -/
theorem MadeOf.prepend {batch : Batch σ} {s : Session σ} {runs : List (Run σ)} {rest : List Json}
    {run single : Run σ} (h : batch.MadeOf run.session runs rest)
    (ha : run.toStep.Agrees single.toStep) (hm : run.matched = single.matched)
    (hc : run.session.calls = s.calls ++ single.session.calls ∧
      run.session.detached = s.detached ++ single.session.detached)
    (hs : s.reply.terminated = false) : (prepend run batch).MadeOf s (single :: runs) rest where
  isKnown := h.isKnown
  records := by
    simp only [Batch.prepend, h.records, ha.draft, List.flatMap_cons, Run.kept]
    split <;> rfl
  excluded := by
    simp only [Batch.prepend, h.excluded, ha.draft, List.map_cons, List.sum_cons, Run.dropped]
    exact Nat.add_comm _ _
  matched := by
    simp only [Batch.prepend, h.matched, hm, List.map_cons, List.sum_cons]
    exact Nat.add_comm _ _
  calls := by simp only [Batch.prepend, h.calls, hc, List.flatMap_cons, List.append_assoc]
  detached := by simp only [Batch.prepend, h.detached, hc, List.flatMap_cons, List.append_assoc]
  terminated := by
    simp only [Batch.prepend, h.terminated, ha.terminated, hs, List.any_cons, Bool.false_or]

variable {ctx : Context σ} {rules : List Rule}

/-- A batch that is stopped is made of the runs of its records up to the first that ends. -/
theorem ofRecords_stopping (hs : ctx.catalog.Stateless) (world : σ) (records : List Json)
    {s : Session σ} (h : s.reply.terminated = false) :
    let single := Run.under ctx rules world false
    let k := records.findIdx fun r => (single r).session.reply.terminated
    (∀ r ∈ records.take (k + 1), (single r).IsKnown) →
      (ofRecords ctx rules true records s).MadeOf s ((records.take (k + 1)).map single)
        (records.drop (k + 1)) := by
  intro single
  induction records generalizing s with
  | nil =>
    intro k hk
    exact ⟨rfl, rfl, rfl, rfl, by simp [ofRecords], by simp [ofRecords], by simp [ofRecords]⟩
  | cons record rest ih =>
    intro k hk
    -- The reply is not terminated yet, so the record is run as it would be by itself.
    obtain ⟨ha, hm⟩ := Run.ofRules_agrees hs rules { record } (s := s) (t := { world }) h
    have hadded := (Run.ofRules_parallel hs rules { record } (s := s) (t := { world })
      h).appends rfl rfl
    have hsettled : (Run.ofRecord ctx rules record s).toStep.Settled :=
      Run.ofRules_settled h rules rfl
    have hknown : (Run.ofRecord ctx rules record s).IsKnown := by
      intro name
      rw [Run.ofRecord, ha.verdict]
      exact hk record (by simp) name
    have hdraft : (Run.ofRecord ctx rules record s).draft.terminated =
        (single record).session.reply.terminated :=
      (hsettled.terminated_eq hknown).trans ha.terminated
    rw [ofRecords_cons_of_known hknown, afterRun, Bool.true_and, hdraft]
    cases hterm : (single record).session.reply.terminated with
    | true =>
      -- This record ends its run, and the batch with it.
      have hzero : k = 0 := by simp [k, List.findIdx_cons, hterm]
      have hrest : Batch.MadeOf ⟨rest, 0, 0, (Run.ofRecord ctx rules record s).session, none⟩
          (Run.ofRecord ctx rules record s).session [] rest := by
        constructor <;> simp
      rw [hzero]
      exact hrest.prepend ha hm hadded h
    | false =>
      -- This record does not end its run: the first that does is among the others.
      have hnext : k = rest.findIdx (fun r => (single r).session.reply.terminated) + 1 := by
        simp [k, List.findIdx_cons, hterm]
      have hrest := ih (s := (Run.ofRecord ctx rules record s).session)
        (ha.terminated.trans hterm) fun r hr => hk r (by rw [hnext]; exact .tail record hr)
      rw [hnext]
      exact hrest.prepend ha hm hadded h

end Batch

namespace Engine

variable {engine : Engine σ} {occasion : Occasion} {world : σ}

/-- Whether a record by itself ends its run. -/
def endsAlone (engine : Engine σ) (occasion : Occasion) (world : σ) (record : Json) : Bool :=
  match engine.alone occasion world record with
  | .ok o => o.isTerminated
  | .error _ => false

/-- A single record makes and sets aside the calls of its run. -/
theorem calls_process_single {record : Json} (ha : record.isArray = false) :
    let run := Run.under (engine.context occasion) (engine.rulesFor occasion) world false record
    (engine.process occasion record world).calls = run.session.calls ∧
      (engine.process occasion record world).detached = run.session.detached := by
  rw [process_single ha]
  exact ⟨rfl, rfl⟩

/-- A batch makes and sets aside the calls of its runs, also if there are no rules. -/
theorem calls_process_arr (records : List Json) :
    (engine.process occasion (.arr records) world).calls =
        (engine.processBatch occasion records world).calls ∧
      (engine.process occasion (.arr records) world).detached =
        (engine.processBatch occasion records world).detached := by
  unfold process
  split
  · rename_i hempty
    rw [List.isEmpty_iff] at hempty
    simp [processBatch, hempty, ofRecords_nil_rules, finish]
  · exact ⟨rfl, rfl⟩

/-- A record of which it is known what it comes to alone ends its run if its reply is
terminated. -/
theorem endsAlone_eq {record : Json} (ha : record.isArray = false)
    (hk : ∃ o, engine.alone occasion world record = .ok o) :
    engine.endsAlone occasion world record = (Run.under (engine.context occasion)
      (engine.rulesFor occasion) world false record).session.reply.terminated := by
  obtain ⟨o, ho⟩ := hk
  obtain ⟨-, rfl⟩ := (alone_eq_ok_iff ha o).mp ho
  rw [endsAlone, ho]
  rfl

theorem map_alone_eq {records : List Json} (ha : ∀ r ∈ records, r.isArray = false)
    (hk : ∀ r ∈ records, ∃ o, engine.alone occasion world r = .ok o) :
    let runs := records.map
      (Run.under (engine.context occasion) (engine.rulesFor occasion) world false)
    records.map (engine.alone occasion world) = (runs.map Run.outcome).map .ok ∧
      (records.flatMap fun r => (engine.process occasion r world).calls) =
        runs.flatMap (·.session.calls) ∧
      (records.flatMap fun r => (engine.process occasion r world).detached) =
        runs.flatMap (·.session.detached) := by
  refine ⟨(map_alone_eq_iff ha hk _).mpr (by rw [List.map_map]; rfl), ?_, ?_⟩
  · rw [List.flatMap_map, List.flatMap_def, List.flatMap_def,
      List.map_congr_left fun r hr => (calls_process_single (ha r hr)).1]
  · rw [List.flatMap_map, List.flatMap_def, List.flatMap_def,
      List.map_congr_left fun r hr => (calls_process_single (ha r hr)).2]

theorem process_of_madeOf {records rest : List Json} {runs : List (Run σ)}
    (h : (Batch.ofRecords (engine.context occasion) (engine.rulesFor occasion)
      engine.config.stopsBatch records { world }).MadeOf { world } runs rest) :
    let processed := engine.process occasion (.arr records) world
    ∃ o, processed.outcome = .ok o ∧ o.data = .arr (runs.flatMap Run.kept ++ rest) ∧
      o.matched = (runs.map (·.matched)).sum ∧ o.excluded = (runs.map Run.dropped).sum ∧
      o.isTerminated = runs.any (fun run => run.session.reply.terminated) ∧
      processed.calls = runs.flatMap (·.session.calls) ∧
      processed.detached = runs.flatMap (·.session.detached) := by
  intro processed
  obtain ⟨hcalls, hdetached⟩ := @calls_process_arr _ engine occasion world records
  let batch := Batch.ofRecords (engine.context occasion) (engine.rulesFor occasion)
    engine.config.stopsBatch records { world }
  have houtcome : processed.outcome =
      .ok ⟨.arr batch.records, batch.session.reply, batch.excluded, batch.matched⟩ := by
    simp only [processed, process_arr, processBatch, finish, h.isKnown, batch]
  exact ⟨_, houtcome, congrArg Json.arr h.records, h.matched, h.excluded, h.terminated,
    hcalls.trans h.calls, hdetached.trans h.detached⟩

/-- The runs of a batch that is stopped are those of the records up to the first that by itself
ends its run. -/
theorem ofRecords_madeOf (hs : engine.catalog.Stateless) {records : List Json}
    (ha : ∀ r ∈ records, r.isArray = false)
    (hk : ∀ r ∈ records.take (records.findIdx (engine.endsAlone occasion world) + 1),
      ∃ o, engine.alone occasion world r = .ok o) :
    let k := records.findIdx (engine.endsAlone occasion world)
    (Batch.ofRecords (engine.context occasion) (engine.rulesFor occasion) true records
      { world }).MadeOf { world } ((records.take (k + 1)).map
        (Run.under (engine.context occasion) (engine.rulesFor occasion) world false))
      (records.drop (k + 1)) := by
  intro k
  have ha' : ∀ r ∈ records.take (k + 1), r.isArray = false :=
    fun r hr => ha r (List.mem_of_mem_take hr)
  have hindex : records.findIdx (fun r => (Run.under (engine.context occasion)
      (engine.rulesFor occasion) world false r).session.reply.terminated) = k :=
    (findIdx_congr_take fun r hr => endsAlone_eq (ha' r hr) (hk r hr)).symm
  have hmade := @Batch.ofRecords_stopping _ (engine.context occasion) (engine.rulesFor occasion) hs
    world records { world } rfl
  simp only [hindex] at hmade
  refine hmade fun r hr => ?_
  obtain ⟨o, ho⟩ := hk r hr
  exact ((alone_eq_ok_iff (ha' r hr) o).mp ho).1

/-- A batch that the end of a record stops. Up to the first record that by itself ends its run, the
records come to what they come to alone and make the calls that they make alone. The others stay as
they are, none is lost, and no call is made for them. -/
theorem process_stopping (hc : engine.config.stopsBatch = true) (hs : engine.catalog.Stateless)
    {records : List Json} (ha : ∀ r ∈ records, r.isArray = false)
    (hk : ∀ r ∈ records.take (records.findIdx (engine.endsAlone occasion world) + 1),
      ∃ o, engine.alone occasion world r = .ok o) :
    let k := records.findIdx (engine.endsAlone occasion world)
    let asked := records.take (k + 1)
    let processed := engine.process occasion (.arr records) world
    ∃ outcomes : List Outcome, asked.map (engine.alone occasion world) = outcomes.map .ok ∧
      ∃ o kept, processed.outcome = .ok o ∧ o.data = .arr kept ∧
        kept = ((outcomes.filter fun o => !o.isExcluded).map Outcome.data) ++
          records.drop (k + 1) ∧
        o.matched = (outcomes.map Outcome.matched).sum ∧
        o.excluded = (outcomes.map Outcome.excluded).sum ∧
        o.excluded + kept.length = records.length ∧
        (o.isTerminated = true ↔
          ∃ r, records[k]? = some r ∧ engine.endsAlone occasion world r = true) ∧
        processed.calls = (asked.flatMap fun r => (engine.process occasion r world).calls) ∧
        processed.detached =
          (asked.flatMap fun r => (engine.process occasion r world).detached) := by
  intro k asked processed
  have ha' : ∀ r ∈ asked, r.isArray = false := fun r hr => ha r (List.mem_of_mem_take hr)
  let runs := asked.map
    (Run.under (engine.context occasion) (engine.rulesFor occasion) world false)
  have hmade : (Batch.ofRecords (engine.context occasion) (engine.rulesFor occasion)
      engine.config.stopsBatch records { world }).MadeOf { world } runs (records.drop (k + 1)) := by
    rw [hc]
    exact ofRecords_madeOf hs ha hk
  obtain ⟨houtcomes, hcalls, hdetached⟩ := map_alone_eq ha' hk
  obtain ⟨o, ho, hdata, hm, he, ht, hcs, hds⟩ := process_of_madeOf hmade
  refine ⟨runs.map Run.outcome, houtcomes, o, runs.flatMap Run.kept ++ records.drop (k + 1), ho,
    hdata, ?_, ?_, ?_, ?_, ?_, hcs.trans hcalls.symm, hds.trans hdetached.symm⟩
  · rw [Run.map_data_outcome]
  · rw [hm, Run.map_matched_outcome]
  · rw [he, Run.map_excluded_outcome]
  · have hcount : (runs.flatMap Run.kept).length + (runs.map Run.dropped).sum = asked.length := by
      rw [Run.length_flatMap_kept_add_dropped, List.length_map]
    have hsplit : asked.length + (records.drop (k + 1)).length = records.length := by
      rw [← List.length_append, List.take_append_drop]
    rw [List.length_append, he]
    omega
  · rw [ht, List.any_map, ← any_take_findIdx, List.any_eq_true, List.any_eq_true]
    refine exists_congr fun r => and_congr_right fun hr => ?_
    rw [endsAlone_eq (ha' r hr) (hk r hr)]
    rfl

theorem process_stopping_answering :
    let engine : Engine Unit := { answering with config := ⟨true⟩ }
    let records := [Json.obj [], .obj [], .null]
    engine.config.stopsBatch = true ∧ engine.catalog.Stateless ∧
      (∀ r ∈ records, r.isArray = false) ∧
      (∀ r ∈ records.take (records.findIdx (engine.endsAlone readingLeads ()) + 1),
        ∃ o, engine.alone readingLeads () r = .ok o) ∧
      ∃ o kept, (engine.process readingLeads (.arr records) ()).outcome = .ok o ∧
        o.data = .arr kept ∧ o.excluded + kept.length = 3 ∧ o.isTerminated = true := by
  intro engine records
  have hs : engine.catalog.Stateless := answering_stateless
  have ha : ∀ r ∈ records, r.isArray = false := by simp [records, Json.isArray]
  have hfirst : records.findIdx (engine.endsAlone readingLeads ()) = 0 := rfl
  have hk : ∀ r ∈ records.take (records.findIdx (engine.endsAlone readingLeads ()) + 1),
      ∃ o, engine.alone readingLeads () r = .ok o := by
    intro r hr
    obtain rfl : r = .obj [] := by simpa [hfirst, records] using hr
    exact ⟨⟨.obj [], { terminated := true }, 0, 1⟩, rfl⟩
  obtain ⟨outcomes, -, o, kept, ho, hdata, -, -, -, hlength, hterm, -⟩ :=
    @process_stopping _ engine readingLeads () rfl hs records ha hk
  exact ⟨rfl, hs, ha, hk, o, kept, ho, hdata, hlength, hterm.mpr ⟨.obj [], rfl, rfl⟩⟩

end Engine

end Bylaw
