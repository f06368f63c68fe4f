import Bylaw.Engine
import Bylaw.Proofs.Run.Calls
import Bylaw.Proofs.RuleSet.Index

/-! What loading rules promises. Main statement: processing with rules that were loaded fails
exactly if the handler of the last call that was made answers that there is no handler of some
name. -/

namespace Bylaw

variable {σ : Type}

theorem Catalog.missing_eq_nil_iff {catalog : Catalog σ} {rules : List Rule} :
    catalog.missing rules = [] ↔
      ∀ rule ∈ rules, ∀ name ∈ rule.handlers, catalog.contains name := by
  have hmem (name : String) : name ∈ catalog.missing rules ↔
      (∃ rule ∈ rules, name ∈ rule.handlers) ∧ catalog.contains name = false := by
    simp [missing, Keyed.mem_sortedNames]
  rw [List.eq_nil_iff_forall_not_mem]
  simp only [hmem, not_and, Bool.not_eq_false, forall_exists_index, and_imp]
  exact ⟨fun h rule hr name hn => h name rule hr hn, fun h name rule hr hn => h rule hr name hn⟩

/-- Calls that are made from a world on end well, or the last of them is why there is an error. -/
def Processed.Accounted (catalog : Catalog σ) (first : σ) (processed : Processed σ) : Prop :=
  (∃ o, processed.outcome = .ok o) ∧ (∀ name, ¬catalog.Disowns first processed.calls name) ∨
    ∃ name, processed.outcome = .error (.unknownHandlers [name]) ∧
      catalog.Disowns first processed.calls name

namespace Engine

variable {engine loaded : Engine σ} {source : String} {occasion : Occasion} {world : σ}

/-- The rules that an engine has loaded are those of the text, and the catalog has their
handlers. -/
theorem rules_of_load (h : engine.load source = .ok loaded) :
    ∃ rules, loaded.rules = .ofRules rules (engine.rules.version + 1) ∧
      ∀ rule ∈ rules, ∀ name ∈ rule.handlers, loaded.catalog.contains name := by
  simp only [load, check] at h
  split at h
  · cases h
  · rename_i rules hcheck
    obtain rfl := Except.ok.inj h
    split at hcheck
    · cases hcheck
    · split at hcheck
      · rename_i hmissing
        obtain rfl := Except.ok.inj hcheck
        exact ⟨_, rfl, Catalog.missing_eq_nil_iff.mp hmissing⟩
      · cases hcheck

theorem finish_accounted {catalog : Catalog σ} {first : σ} {s : Session σ}
    {unknown? : Option String}
    (h : catalog.Accounts first s.calls s.world fun name => unknown? = some name)
    (outcome : Reply → Outcome) :
    (finish s unknown? outcome).Accounted catalog first := by
  cases unknown? with
  | none => exact .inl ⟨⟨_, rfl⟩, fun name => (h.unknown_iff name).not.mp (by simp)⟩
  | some name => exact .inr ⟨name, rfl, (h.unknown_iff name).mp rfl⟩

section

variable (hc : ∀ rule ∈ engine.rulesFor occasion, ∀ name ∈ rule.handlers,
  engine.catalog.contains name)
include hc

theorem processBatch_accounted (records : List Json) :
    (engine.processBatch occasion records world).Accounted engine.catalog world :=
  finish_accounted (@Batch.ofRecords_accounted _ (engine.context occasion) world { world } _
    engine.config.stopsBatch records hc (Catalog.Accounts.nil engine.catalog world)) _

theorem processRecord_accounted (record : Json) :
    (engine.processRecord occasion record world).Accounted engine.catalog world := by
  have hrun : (Run.ofRecord (engine.context occasion) (engine.rulesFor occasion) record
      { world }).toStep.Accounted engine.catalog world :=
    @Run.ofRules_accounted _ (engine.context occasion) world { world } (engine.rulesFor occasion)
      { record } hc (Catalog.Accounts.nil engine.catalog world)
  refine finish_accounted (hrun.congr fun name => ?_) _
  split
  · rename_i other hv
    rw [Option.some.injEq, hv, Verdict.unknown.injEq]
  · rename_i hv
    simpa using hv name

theorem process_accounted (data : Json) :
    (engine.process occasion data world).Accounted engine.catalog world := by
  unfold process
  split
  · have hnone : engine.catalog.Accounts world [] world fun name => none = some name :=
      (Catalog.Accounts.nil engine.catalog world).of_known (by simp) (by simp)
    exact finish_accounted (s := { world }) hnone fun _ => { data }
  · cases data with
    | arr records => exact processBatch_accounted hc records
    | _ => exact processRecord_accounted hc _

end

/-- Loaded rules, whatever they are asked, fail only for want of a handler: exactly if the handler
of the last call that was made answers that there is none of that name. -/
theorem process_of_load (h : engine.load source = .ok loaded) (config : EngineConfig)
    (occasion : Occasion) (data : Json) (world : σ) :
    let processed := ({ loaded with config } : Engine σ).process occasion data world
    (∀ e, processed.outcome = .error e ↔ ∃ name, e = .unknownHandlers [name] ∧
      loaded.catalog.Disowns world processed.calls name) ∧
      ((∀ name, ¬loaded.catalog.Disowns world processed.calls name) →
        ∃ o, processed.outcome = .ok o) := by
  obtain ⟨rules, hrules, hc⟩ := rules_of_load h
  have hasked : ∀ rule ∈ ({ loaded with config } : Engine σ).rulesFor occasion,
      ∀ name ∈ rule.handlers, loaded.catalog.contains name := by
    intro rule hr
    simp only [rulesFor, hrules, RuleSet.rulesFor_ofRules, List.mem_filter] at hr
    exact hc rule hr.1
  intro processed
  have hp : processed.Accounted loaded.catalog world := process_accounted hasked data
  obtain ⟨⟨o, ho⟩, hnone⟩ | ⟨name, herror, hname⟩ := hp
  · refine ⟨fun e => ?_, fun _ => ⟨o, ho⟩⟩
    rw [ho]
    simp only [reduceCtorEq, false_iff, not_exists, not_and]
    exact fun name _ => hnone name
  · refine ⟨fun e => ?_, fun hnone => absurd hname (hnone name)⟩
    rw [herror, Except.error.injEq]
    constructor
    · rintro rfl
      exact ⟨name, rfl, hname⟩
    · rintro ⟨other, rfl, hother⟩
      rw [hname.unique hother]

/-- An engine whose one handler answers that there is no ledger. -/
def auditing : Engine Unit where
  catalog := ⟨[("audit", fun _ world => (.error (.unknownHandler "ledger"), world))]⟩

theorem process_of_load_auditing :
    ∃ loaded, auditing.load "IF POST leads THEN INVOKE audit()" = .ok loaded ∧
      loaded.catalog.Disowns ()
        (loaded.process ⟨.post, "leads", {}, ⟨0, by decide, by decide⟩⟩ (.obj []) ()).calls
        "ledger" := by
  have hload : auditing.load "IF POST leads THEN INVOKE audit()" = .ok { auditing with
      rules := .ofRules [⟨"leads", [.post], none, [.invoke "audit" []], 1⟩] 1 } := by
    with_unfolding_all rfl
  obtain ⟨hiff, -⟩ := process_of_load hload {} ⟨.post, "leads", {}, ⟨0, by decide, by decide⟩⟩
    (.obj []) ()
  obtain ⟨name, hname, hlast⟩ := (hiff (.unknownHandlers ["ledger"])).mp rfl
  obtain rfl := List.singleton_inj.mp (EngineError.unknownHandlers.inj hname)
  exact ⟨_, hload, hlast⟩

end Engine

end Bylaw
