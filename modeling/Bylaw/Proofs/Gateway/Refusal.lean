import Bylaw.Gateway.Records
import Mathlib.Tactic.Common

/-! Responses that refuse a request. Main statement: what answers in place of an object that a
request does not bring is a refusal. -/

namespace Bylaw

/-- A response that reports no success, and that the rules have not been applied to. -/
structure Response.Refuses (response : Response) : Prop where
  fails : response.isSuccess = false
  bare : response.rulesApplied = false

theorem Response.Refuses.status_ne {response : Response} (h : response.Refuses) {status : Nat}
    (hs : 200 ≤ status ∧ status < 300) : response.status ≠ status := by
  rintro rfl
  have hf := h.fails
  simp [isSuccess, hs] at hf

theorem Failure.refuses_response (failure : Failure) : failure.response.Refuses := by
  refine ⟨?_, rfl⟩
  cases failure with
  | engine e => cases e <;> rfl
  | _ => rfl

namespace Records

theorem bodyOf_refuses {request : Request} {response : Response}
    (h : bodyOf request = .error response) : response.Refuses := by
  unfold bodyOf at h
  split at h
  · obtain rfl := Except.error.inj h
    exact ⟨rfl, rfl⟩
  · split at h
    · obtain rfl := Except.error.inj h
      exact ⟨rfl, rfl⟩
    · split at h
      · obtain rfl := Except.error.inj h
        exact ⟨rfl, rfl⟩
      · cases h

theorem objectOf_refuses {request : Request} {response : Response}
    (h : objectOf request = .error response) : response.Refuses := by
  unfold objectOf at h
  split at h
  · rename_i hbody
    obtain rfl := Except.error.inj h
    exact bodyOf_refuses hbody
  · split at h
    · cases h
    · obtain rfl := Except.error.inj h
      exact Failure.refuses_response _

theorem read_of_bodyOf {request : Request} {v : Json} (h : bodyOf request = .ok v) :
    request.body.read = .ok v := by
  unfold bodyOf at h
  split at h
  · cases h
  · split at h
    · cases h
    · split at h
      · cases h
      · rename_i hread
        rw [hread, Except.ok.inj h]

theorem read_of_objectOf {request : Request} {v : Json} (h : objectOf request = .ok v) :
    request.body.read = .ok v := by
  unfold objectOf at h
  split at h
  · cases h
  · rename_i hbody
    split at h
    · rw [← Except.ok.inj h]
      exact read_of_bodyOf hbody
    · cases h

end Records

end Bylaw
