import Bylaw.Proofs.Run.Dependence
import Mathlib.Data.List.Induction

/-! How steps make a reply: patches that are accepted or refused, and ends that are put to it. Main
statement: each part of a reply is the last one that an accepted patch sets, a patch is accepted
exactly if its status is well formed and no step before it has ended the reply, and from the end on
nothing changes. -/

namespace Bylaw

namespace Patch

/-- The status that a patch sets. The terminal one is none. -/
def ownStatus (p : Patch) : Option Nat := p.status.filter (· ≠ terminalStatus)

theorem isWellFormed_iff {p : Patch} : p.isWellFormed = true ↔
    p.status = none ∨ p.status = some terminalStatus ∨
      ∃ s, p.status = some s ∧ 100 ≤ s ∧ s ≤ 999 := by
  cases h : p.status with
  | none => simp [isWellFormed, h]
  | some s =>
    simp only [isWellFormed, h, Bool.or_eq_true, Bool.and_eq_true, decide_eq_true_eq, beq_iff_eq,
      reduceCtorEq, false_or, Option.some.injEq, exists_eq_left']
    unfold terminalStatus
    omega

theorem isTerminal_iff {p : Patch} : p.isTerminal = true ↔ p.status = some terminalStatus := by
  rw [isTerminal, beq_iff_eq]

theorem isWellFormed_of_isTerminal {p : Patch} (h : p.isTerminal = true) :
    p.isWellFormed = true :=
  isWellFormed_iff.mpr (.inr (.inl (isTerminal_iff.mp h)))

theorem ownStatus_bounds {p : Patch} (h : p.isWellFormed = true) {s : Nat}
    (hs : p.ownStatus = some s) : 100 ≤ s ∧ s ≤ 999 := by
  obtain ⟨hstatus, hne⟩ := Option.filter_eq_some_iff.mp hs
  obtain hnone | hterminal | ⟨other, hother, hbounds⟩ := isWellFormed_iff.mp h
  · rw [hnone] at hstatus
    cases hstatus
  · rw [hterminal, Option.some.injEq] at hstatus
    simp [hstatus] at hne
  · rw [hother, Option.some.injEq] at hstatus
    exact hstatus ▸ hbounds

end Patch

namespace Reply

/-- A step in the making of a reply. -/
inductive Step where
  | apply (p : Patch)
  | respond (status : Nat) (message : Option String) (error data : Option Json)
    (moduleName : Option String)
  | terminate

/-- The patch that a step brings. -/
def Step.patch? : Step → Option Patch
  | .apply p => some p
  | .respond status message error data moduleName =>
    some { status := some status, message, error, data, moduleName }
  | .terminate => none

/-- The reply after a step; nothing if the step's patch is refused. -/
def step? (r : Reply) : Step → Option Reply
  | .apply p => r.patch? p
  | .respond status message error data moduleName => r.respond? status message error data moduleName
  | .terminate => some r.terminate

/-- The reply after a step, whose patch may be refused. -/
def step (r : Reply) (s : Step) : Reply := (r.step? s).getD r

/-- The reply that steps make. -/
def ofSteps (steps : List Step) : Reply := steps.foldl step {}

/-- The patches of the steps that are accepted, in order. -/
def accepted : Reply → List Step → List Patch
  | _, [] => []
  | r, s :: rest => (if (r.step? s).isSome then s.patch?.toList else []) ++ accepted (r.step s) rest

/-- Whether a step that comes after others ends the reply: it says so, or its patch is accepted and
has the terminal status. -/
def EndsAfter (before : List Step) (s : Step) : Prop :=
  s = .terminate ∨ ∃ p, s.patch? = some p ∧ p.status = some Patch.terminalStatus ∧
    ((ofSteps before).step? s).isSome

/-- Whether one of the steps ends the reply. -/
def IsEnded (steps : List Step) : Prop := ∃ before s, before ++ [s] <+: steps ∧ EndsAfter before s

/-- The last value that a patch has in one of its parts. -/
def lastOf {α : Type} (part : Patch → Option α) (patches : List Patch) : Option α :=
  (patches.filterMap part).getLast?

theorem lastOf_concat {α : Type} (part : Patch → Option α) (patches : List Patch) (p : Patch) :
    lastOf part (patches ++ [p]) = (part p).or (lastOf part patches) := by
  rw [lastOf, List.filterMap_append, List.getLast?_append, lastOf]
  cases h : part p <;> simp [h]

variable {r : Reply}

/-- A patch is accepted if nothing has ended the reply and its status is well formed. -/
theorem isSome_patch? (r : Reply) (p : Patch) :
    (r.patch? p).isSome = (!r.terminated && p.isWellFormed) := by
  rw [patch?]
  cases r.terminated <;> cases p.isWellFormed <;> rfl

theorem step?_of_patch? {s : Step} {p : Patch} (h : s.patch? = some p) :
    r.step? s = r.patch? p := by
  cases s with
  | terminate => cases h
  | _ => obtain rfl := Option.some.inj h; rfl

theorem patch_of_isSome {p : Patch} (h : (r.patch? p).isSome) :
    r.patch p = {
      status := p.ownStatus.or r.status
      message := p.message.or r.message
      error := p.error.or r.error
      data := p.data.or r.data
      moduleName := p.moduleName.or r.moduleName
      terminated := p.isTerminal } := by
  rw [isSome_patch?, Bool.and_eq_true, Bool.not_eq_true'] at h
  have hstatus : (if p.isTerminal then r.status else p.status.or r.status) =
      p.ownStatus.or r.status := by
    cases hs : p.status with
    | none => simp [Patch.isTerminal, Patch.ownStatus, hs]
    | some s =>
      by_cases ht : s = Patch.terminalStatus
      · simp [Patch.isTerminal, Patch.ownStatus, hs, ht, Option.filter_some]
      · simp [Patch.isTerminal, Patch.ownStatus, hs, ht, Option.filter_some]
  simp [patch, patch?, h.1, h.2, hstatus]

/-- Sets the parts that a patch has beside its status in place, one after the other. -/
def setParts (r : Reply) (p : Patch) : Reply := Id.run do
  let mut reply := r
  if p.message.isSome then reply := { reply with message := p.message }
  if p.error.isSome then reply := { reply with error := p.error }
  if p.data.isSome then reply := { reply with data := p.data }
  if p.moduleName.isSome then reply := { reply with moduleName := p.moduleName }
  return reply

/-- A patch made in place, and whether it was accepted. What was set until it is refused stays
set. -/
def patchInPlace (r : Reply) (p : Patch) : Bool × Reply := Id.run do
  let mut reply := r
  if reply.terminated then return (false, reply)
  let mut ends := false
  if let some status := p.status then
    if status = Patch.terminalStatus then
      ends := true
    else if 100 ≤ status ∧ status < Patch.terminalStatus then
      reply := { reply with status := some status }
    else
      return (false, reply)
  reply := reply.setParts p
  if ends then reply := reply.terminate
  return (true, reply)

theorem setParts_eq (r : Reply) (p : Patch) :
    r.setParts p = { r with
      message := p.message.or r.message
      error := p.error.or r.error
      data := p.data.or r.data
      moduleName := p.moduleName.or r.moduleName } := by
  obtain ⟨status, message, error, data, moduleName⟩ := p
  cases message <;> cases error <;> cases data <;> cases moduleName <;> rfl

/-- A patch that is refused is refused before any part is set. -/
theorem patchInPlace_eq (r : Reply) (p : Patch) :
    r.patchInPlace p = ((r.patch? p).isSome, r.patch p) := by
  cases hopen : r.terminated with
  | true => simp [patchInPlace, patch, patch?, hopen]
  | false =>
    cases hs : p.status with
    | none =>
      simp [patchInPlace, patch, patch?, setParts_eq, hopen, hs, Patch.isWellFormed,
        Patch.isTerminal]
    | some s =>
      by_cases hterminal : s = Patch.terminalStatus
      · simp [patchInPlace, patch, patch?, setParts_eq, hopen, hs, hterminal, terminate,
          Patch.isWellFormed, Patch.isTerminal]
      · by_cases hin : 100 ≤ s ∧ s < Patch.terminalStatus
        · simp [patchInPlace, patch, patch?, setParts_eq, hopen, hs, hterminal, hin,
            Patch.isWellFormed, Patch.isTerminal]
        · have hrefused : p.isWellFormed = false := by
            simp only [Patch.isWellFormed, hs, ← Bool.decide_and, hin, decide_false, Bool.false_or,
              beq_eq_false_iff_ne]
            exact hterminal
          simp [patchInPlace, patch, patch?, hopen, hs, hterminal, hin, hrefused]

theorem step_of_patch? {s : Step} {p : Patch} (h : s.patch? = some p) : r.step s = r.patch p := by
  rw [step, step?_of_patch? h, patch]

/-- A step without a patch says that the reply ends. -/
theorem eq_terminate_of_patch? {s : Step} (h : s.patch? = none) : s = .terminate := by
  cases s with
  | terminate => rfl
  | _ => cases h

theorem ofSteps_concat (steps : List Step) (s : Step) :
    ofSteps (steps ++ [s]) = (ofSteps steps).step s := by
  rw [ofSteps, List.foldl_append, List.foldl_cons, List.foldl_nil, ofSteps]

theorem accepted_append (r : Reply) (steps more : List Step) :
    accepted r (steps ++ more) = accepted r steps ++ accepted (steps.foldl step r) more := by
  induction steps generalizing r with
  | nil => rfl
  | cons s rest ih => simp only [List.cons_append, accepted, ih, List.foldl_cons, List.append_assoc]

theorem accepted_concat (steps : List Step) (s : Step) :
    accepted {} (steps ++ [s]) = accepted {} steps ++
      if ((ofSteps steps).step? s).isSome then s.patch?.toList else [] := by
  rw [accepted_append, accepted, accepted, List.append_nil, ofSteps]

theorem isEnded_concat {steps : List Step} {s : Step} :
    IsEnded (steps ++ [s]) ↔ IsEnded steps ∨ EndsAfter steps s := by
  constructor
  · rintro ⟨before, other, hprefix, hends⟩
    rcases List.prefix_concat_iff.mp hprefix with heq | hprefix
    · obtain ⟨rfl, hother⟩ := List.append_inj' heq rfl
      exact .inr (List.singleton_inj.mp hother ▸ hends)
    · exact .inl ⟨before, other, hprefix, hends⟩
  · rintro (⟨before, other, hprefix, hends⟩ | hends)
    · exact ⟨before, other, hprefix.trans (List.prefix_append steps [s]), hends⟩
    · exact ⟨steps, s, List.prefix_rfl, hends⟩

/-- A patch ends a reply that has not ended if it asks for it. -/
theorem endsAfter_iff {before : List Step} {s : Step} {p : Patch} (h : s.patch? = some p) :
    EndsAfter before s ↔ (ofSteps before).terminated = false ∧ p.isTerminal = true := by
  have hne : s ≠ .terminate := by
    rintro rfl
    cases h
  simp only [EndsAfter, hne, h, step?_of_patch? h, isSome_patch?, false_or, Option.some.injEq,
    exists_eq_left', Bool.and_eq_true, Bool.not_eq_true', ← Patch.isTerminal_iff]
  exact ⟨fun h => ⟨h.2.1, h.1⟩, fun h => ⟨h.2, h.1, Patch.isWellFormed_of_isTerminal h.2⟩⟩

theorem terminated_ofSteps (steps : List Step) :
    (ofSteps steps).terminated = true ↔ IsEnded steps := by
  induction steps using List.reverseRecOn with
  | nil =>
    refine iff_of_false (by simp [ofSteps]) ?_
    rintro ⟨before, s, hprefix, -⟩
    simp at hprefix
  | append_singleton before s ih =>
    rw [isEnded_concat, ← ih, ofSteps_concat]
    cases h : s.patch? with
    | none =>
      obtain rfl := eq_terminate_of_patch? h
      exact iff_of_true rfl (.inr (.inl rfl))
    | some p =>
      rw [step_of_patch? h, terminated_patch, endsAfter_iff h]
      cases (ofSteps before).terminated <;> simp

theorem step_of_terminated (h : r.terminated = true) (s : Step) : r.step s = r := by
  cases hp : s.patch? with
  | none =>
    obtain rfl := eq_terminate_of_patch? hp
    show r.terminate = r
    rw [terminate, ← h]
  | some p => rw [step_of_patch? hp, patch_of_terminated h]

theorem foldl_step_of_terminated (h : r.terminated = true) (steps : List Step) :
    steps.foldl step r = r := by
  induction steps with
  | nil => rfl
  | cons s rest ih => rw [List.foldl_cons, step_of_terminated h, ih]

/-- What steps make of a reply part by part: each part that patches can set is the last one that an
accepted patch sets. -/
structure MadeOf (r : Reply) (patches : List Patch) : Prop where
  status : r.status = lastOf Patch.ownStatus patches
  message : r.message = lastOf Patch.message patches
  error : r.error = lastOf Patch.error patches
  data : r.data = lastOf Patch.data patches
  moduleName : r.moduleName = lastOf Patch.moduleName patches

theorem MadeOf.concat {patches : List Patch} (h : r.MadeOf patches) {p : Patch}
    (hp : (r.patch? p).isSome) : (r.patch p).MadeOf (patches ++ [p]) := by
  rw [patch_of_isSome hp]
  constructor <;> simp only [lastOf_concat, h.status, h.message, h.error, h.data, h.moduleName]

theorem ofSteps_madeOf (steps : List Step) : (ofSteps steps).MadeOf (accepted {} steps) := by
  induction steps using List.reverseRecOn with
  | nil => exact ⟨rfl, rfl, rfl, rfl, rfl⟩
  | append_singleton before s ih =>
    rw [ofSteps_concat, accepted_concat]
    cases h : s.patch? with
    | none =>
      obtain rfl := eq_terminate_of_patch? h
      simp only [Option.toList_none, ite_self, List.append_nil]
      exact ⟨ih.status, ih.message, ih.error, ih.data, ih.moduleName⟩
    | some p =>
      rw [step_of_patch? h, step?_of_patch? h]
      split
      · rename_i hp
        exact ih.concat hp
      · rename_i hp
        rw [Option.not_isSome_iff_eq_none] at hp
        rw [patch, hp, Option.getD_none, List.append_nil]
        exact ih

theorem isWellFormed_of_accepted {p : Patch} {steps : List Step} (h : p ∈ accepted r steps) :
    p.isWellFormed = true := by
  induction steps generalizing r with
  | nil => cases h
  | cons s rest ih =>
    rcases List.mem_append.mp h with h | h
    · split at h
      · rename_i hs
        have hp : s.patch? = some p := Option.mem_toList.mp h
        rw [step?_of_patch? hp, isSome_patch?, Bool.and_eq_true] at hs
        exact hs.2
      · cases h
    · exact ih h

theorem httpStatus_bounds {patches : List Patch} (h : r.MadeOf patches)
    (hp : ∀ p ∈ patches, p.isWellFormed = true) : 100 ≤ r.httpStatus ∧ r.httpStatus ≤ 999 := by
  rw [httpStatus, h.status, lastOf]
  cases hlast : (patches.filterMap Patch.ownStatus).getLast? with
  | none => exact ⟨by decide, by decide⟩
  | some s =>
    obtain ⟨p, hmem, hs⟩ := List.mem_filterMap.mp (List.mem_of_getLast? hlast)
    exact Patch.ownStatus_bounds (hp p hmem) hs

/-- The reply that steps make on a fresh one. One more patch is accepted exactly if none of the
steps has ended the reply and its status is absent, the terminal one, or one of three digits; if it
is refused it changes nothing. The reply has of each part the last one that an accepted patch sets.
It is terminated exactly if a step has ended it, and is then what it was after that step. Its status
is always one of three digits. -/
theorem ofSteps_law (steps : List Step) :
    let reply := ofSteps steps
    (∀ s p, s.patch? = some p → ((reply.step? s).isSome ↔ ¬IsEnded steps ∧
        (p.status = none ∨ p.status = some 1000 ∨
          ∃ code, p.status = some code ∧ 100 ≤ code ∧ code ≤ 999))) ∧
      (∀ s, reply.step? s = none → ofSteps (steps ++ [s]) = reply) ∧
      reply.MadeOf (accepted {} steps) ∧
      (reply.terminated = true ↔ IsEnded steps) ∧
      (∀ before s, before ++ [s] <+: steps → EndsAfter before s →
        reply = ofSteps (before ++ [s])) ∧
      100 ≤ reply.httpStatus ∧ reply.httpStatus ≤ 999 := by
  intro reply
  have hmade : reply.MadeOf (accepted {} steps) := ofSteps_madeOf steps
  have hended : reply.terminated = true ↔ IsEnded steps := terminated_ofSteps steps
  refine ⟨fun s p hp => ?_, fun s hs => ?_, hmade, hended, fun before s hprefix hends => ?_,
    httpStatus_bounds hmade fun p => isWellFormed_of_accepted⟩
  · rw [step?_of_patch? hp, isSome_patch?, Bool.and_eq_true, Bool.not_eq_true', ← hended,
      Bool.not_eq_true, Patch.isWellFormed_iff]
    rfl
  · rw [ofSteps_concat, step, hs, Option.getD_none]
  · obtain ⟨later, rfl⟩ := hprefix
    have hterminated : (ofSteps (before ++ [s])).terminated = true :=
      (terminated_ofSteps _).mpr ⟨before, s, List.prefix_rfl, hends⟩
    exact (List.foldl_append ..).trans (foldl_step_of_terminated hterminated later)

/-- A patch with an impossible status, and one that comes too late. -/
example :
    let reply := ofSteps [.apply { status := some 409, message := some "duplicate" },
      .apply { status := some 1200, message := some "lost" },
      .respond 1000 (some "stop") none none none, .apply { status := some 500 }]
    reply.httpStatus = 409 ∧ reply.message = some "stop" ∧ reply.terminated = true := by
  decide

end Reply

end Bylaw
