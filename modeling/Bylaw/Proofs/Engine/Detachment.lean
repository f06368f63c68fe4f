import Bylaw.Engine
import Bylaw.Proofs.Run.Answers

/-! Calls that nobody waits for: notifications, and messages to other systems. They are set aside
during a run and made at any time, also while it goes on. Main statement: whatever they answer, and
whenever they are made, events come to the same, as long as the calls that a run waits for are
answered alike. -/

namespace Bylaw

variable {σ τ : Type}

namespace Catalog

/-- A handler that is called while other calls are made. Those that stand first on the agenda come
before it, and nobody sees their answers. -/
def interruptedHandler (catalog : Catalog σ) (handler : Handler σ) :
    Handler (σ × List (List Invocation)) :=
  fun inv state =>
    let (answer, world) := handler inv (catalog.settle (state.2.headD []) state.1)
    (answer, world, state.2.tail)

/-- The handlers at work on an agenda besides: lists of calls, one for each call of a run. -/
def interrupted (catalog : Catalog σ) : Catalog (σ × List (List Invocation)) :=
  ⟨catalog.handlers.map fun entry => (entry.1, catalog.interruptedHandler entry.2)⟩

theorem find?_interrupted (catalog : Catalog σ) (name : String) :
    catalog.interrupted.find? name = (catalog.find? name).map catalog.interruptedHandler := by
  rw [find?, find?, interrupted]
  induction catalog.handlers with
  | nil => rfl
  | cons entry rest ih =>
    simp only [List.map_cons, Keyed.get?]
    split
    · rfl
    · exact ih

theorem contains_interrupted (catalog : Catalog σ) (name : String) :
    catalog.interrupted.contains name = catalog.contains name := by
  rw [contains, find?_interrupted, Option.isSome_map, contains]

theorem call_interrupted_nil (catalog : Catalog σ) (inv : Invocation) (world : σ) :
    catalog.interrupted.call inv (world, []) =
      ((catalog.call inv world).1, (catalog.call inv world).2, []) := by
  rw [call, find?_interrupted, call]
  cases catalog.find? inv.handler <;> rfl

theorem settle_interrupted_nil (catalog : Catalog σ) (calls : List Invocation) (world : σ) :
    catalog.interrupted.settle calls (world, []) = (catalog.settle calls world, []) := by
  induction calls generalizing world with
  | nil => rfl
  | cons inv rest ih =>
    simp only [settle, List.foldl_cons, call_interrupted_nil] at ih ⊢
    exact ih _

end Catalog

/-- Results of processing that differ at most in the world. -/
structure Processed.Agrees (p : Processed σ) (q : Processed τ) : Prop where
  outcome : p.outcome = q.outcome
  calls : p.calls = q.calls
  detached : p.detached = q.detached

namespace Engine

/-- The same rules and settings with other handlers. -/
def withCatalog (engine : Engine σ) (other : Catalog τ) : Engine τ :=
  ⟨other, engine.rules, engine.config⟩

/-- Processing while other calls are made, those that stand on the agenda. -/
def processAmid (engine : Engine σ) (agenda : List (List Invocation)) (occasion : Occasion)
    (data : Json) (world : σ) : Processed (σ × List (List Invocation)) :=
  (engine.withCatalog engine.catalog.interrupted).process occasion data (world, agenda)

section

variable {p : Start σ} {q : Start τ}

theorem finish_batch_agrees {batch : Batch σ} {batch' : Batch τ}
    (h : Batch.Coupled p q batch batch')
    (ha : p.AnswersAlike q batch.session.calls batch'.session.calls) :
    (finish batch.session batch.unknown? fun reply =>
      ⟨.arr batch.records, reply, batch.excluded, batch.matched⟩).Agrees
      (finish batch'.session batch'.unknown? fun reply =>
        ⟨.arr batch'.records, reply, batch'.excluded, batch'.matched⟩) := by
  obtain ⟨hrecords, hexcluded, hmatched, hunknown, hsession⟩ := h ha
  refine ⟨?_, hsession.calls, hsession.detached⟩
  simp only [finish, hunknown, hsession.reply, hrecords, hexcluded, hmatched]

theorem finish_run_agrees {run : Run σ} {run' : Run τ} (h : Run.Coupled p q run run')
    (ha : p.AnswersAlike q run.session.calls run'.session.calls) :
    (finish run.session (match run.verdict with | .unknown name => some name | _ => none)
      fun reply => ⟨run.draft.record, reply, if run.draft.excluded then 1 else 0,
        run.matched⟩).Agrees
      (finish run'.session (match run'.verdict with | .unknown name => some name | _ => none)
        fun reply => ⟨run'.draft.record, reply, if run'.draft.excluded then 1 else 0,
          run'.matched⟩) := by
  obtain ⟨hrun, hmatched⟩ := h ha
  refine ⟨?_, hrun.session.calls, hrun.session.detached⟩
  simp only [finish, hrun.verdict, hrun.draft, hrun.session.reply, hmatched]

end

section

variable {engine : Engine σ} {other : Catalog τ} {occasion : Occasion} {world : σ} {world' : τ}
  (hc : ∀ rule ∈ engine.rulesFor occasion, ∀ name ∈ rule.handlers,
    engine.catalog.contains name = other.contains name)
include hc

/-- An engine with other handlers comes to the same if the calls that it waits for are answered
alike. -/
theorem process_withCatalog (data : Json)
    (ha : Start.AnswersAlike ⟨engine.catalog, world⟩ ⟨other, world'⟩
      (engine.process occasion data world).calls
      ((engine.withCatalog other).process occasion data world').calls) :
    (engine.process occasion data world).Agrees
      ((engine.withCatalog other).process occasion data world') := by
  have hboth : Start.HaveAlike ⟨engine.catalog, world⟩ ⟨other, world'⟩
      ((engine.rulesFor occasion).flatMap Rule.handlers) := by
    intro name hname
    obtain ⟨rule, hrule, hname⟩ := List.mem_flatMap.mp hname
    exact hc rule hrule name hname
  have hstart : Session.Abreast ⟨engine.catalog, world⟩ ⟨other, world'⟩ { world }
    { world := world' } := ⟨rfl, rfl, rfl, rfl, rfl⟩
  have hbatch (records : List Json) := @Batch.ofRecords_coupled _ _ (engine.context occasion) _ _
    _ _ _ engine.config.stopsBatch records hboth hstart
  have hrun (record : Json) := @Run.ofRules_coupled _ _ (engine.context occasion) _ _ _ _ _
    { record } hboth hstart
  by_cases hempty : (engine.rulesFor occasion).isEmpty
  · have hother : ((engine.withCatalog other).rulesFor occasion).isEmpty := hempty
    unfold process
    rw [if_pos hempty, if_pos hother]
    exact ⟨rfl, rfl, rfl⟩
  · have hother : ¬((engine.withCatalog other).rulesFor occasion).isEmpty := hempty
    unfold process at ha ⊢
    rw [if_neg hempty, if_neg hother] at ha ⊢
    cases data with
    | arr records => exact finish_batch_agrees (hbatch records) ha
    | _ => exact finish_run_agrees (hrun _) ha

end

theorem processAmid_nil (engine : Engine σ) (occasion : Occasion) (data : Json) (world : σ) :
    (engine.processAmid [] occasion data world).Agrees (engine.process occasion data world) := by
  refine @process_withCatalog _ _ (engine.withCatalog engine.catalog.interrupted) engine.catalog
    occasion (world, []) world (fun rule _ name _ => engine.catalog.contains_interrupted name)
    data ?_
  intro made inv _ _
  simp only [Start.answer, Start.after, withCatalog, Catalog.settle_interrupted_nil,
    Catalog.call_interrupted_nil]

/-- Two runs of the same rules on the same data, under catalogs that have the same of the handlers
that the rules call, all of them for instance. Their handlers may be at work in worlds of different
types. While either run goes on, any calls may be made that nobody waits for: the two agendas. If
then a call that both runs wait for, and make after the same calls, is answered alike, they come to
the same: the outcome or the error, the calls that they wait for, and the calls that they set aside.
What those set aside are answered is left open: values, changes of the reply, even its end, or
failures, even that there is no such handler. -/
theorem process_detached {engine : Engine σ} {other : Catalog τ} {occasion : Occasion}
    (hc : ∀ rule ∈ engine.rulesFor occasion, ∀ name ∈ rule.handlers,
      engine.catalog.contains name = other.contains name)
    (agenda agenda' : List (List Invocation)) (data : Json) (world : σ) (world' : τ)
    (ha : Start.AnswersAlike ⟨engine.catalog.interrupted, (world, agenda)⟩
      ⟨other.interrupted, (world', agenda')⟩
      (engine.processAmid agenda occasion data world).calls
      ((engine.withCatalog other).processAmid agenda' occasion data world').calls) :
    let p := engine.processAmid agenda occasion data world
    let q := (engine.withCatalog other).processAmid agenda' occasion data world'
    p.outcome = q.outcome ∧ p.calls = q.calls ∧ p.detached = q.detached := by
  intro p q
  have hinterrupted : ∀ rule ∈ (engine.withCatalog engine.catalog.interrupted).rulesFor occasion,
      ∀ name ∈ rule.handlers,
        engine.catalog.interrupted.contains name = other.interrupted.contains name := by
    intro rule hrule name hname
    rw [Catalog.contains_interrupted, Catalog.contains_interrupted]
    exact hc rule hrule name hname
  have hp : p.Agrees q := process_withCatalog hinterrupted data ha
  exact ⟨hp.outcome, hp.calls, hp.detached⟩

/-- A handler of reports. It acknowledges those that are waited for, and answers something else to
those that are sent to it. -/
def reports (sent : Except ActionError Output) (next : σ → σ) : Catalog σ :=
  ⟨[("report", fun inv world => (if inv.params.isArray then .ok {} else sent, next world))]⟩

/-- An engine that reports each new lead twice: it sends a report, and then waits for another. -/
def reporting : Engine Unit where
  catalog := reports (.ok { response := some { status := some Patch.terminalStatus } }) id
  rules := .ofRules [⟨"leads", [.post], none, [.send "lead" "report", .invoke "report" []], 1⟩]

theorem process_detached_reporting :
    let posting : Occasion := ⟨.post, "leads", {}, ⟨0, by decide, by decide⟩⟩
    let other : Catalog Nat := reports (.error (.unknownHandler "report")) (· + 1)
    let sent : Invocation :=
      ⟨"report", "leads", .post, .obj [], .obj [("subject", .str "lead")], {}⟩
    let data := Json.arr [.obj [], .obj []]
    let p := reporting.processAmid [] posting data ()
    let q := (reporting.withCatalog other).processAmid [[sent], [sent]] posting data 0
    p.detached = [sent, sent] ∧ (reporting.catalog.call sent ()).1 ≠ (other.call sent 0).1 ∧
      p.outcome = q.outcome ∧ p.calls = q.calls ∧ p.detached = q.detached := by
  intro posting other sent data p q
  have hcalls : p.calls = [{ sent with params := .arr [] }, { sent with params := .arr [] }] := rfl
  have hc : ∀ rule ∈ reporting.rulesFor posting, ∀ name ∈ rule.handlers,
      reporting.catalog.contains name = other.contains name := by
    intro rule hrule name hname
    obtain rfl := List.mem_singleton.mp hrule
    obtain rfl : name = "report" := by simpa [Rule.handlers, Action.handlers] using hname
    rfl
  refine ⟨rfl, nofun, process_detached hc [] [[sent], [sent]] data () 0
    (Start.answersAlike_of_mem fun inv hinv world world' => ?_)⟩
  obtain rfl : inv = { sent with params := .arr [] } := by
    have hmem := hcalls ▸ hinv
    simpa using hmem
  rfl

end Engine

end Bylaw
