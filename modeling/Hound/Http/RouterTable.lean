import Hound.Http.RouterStatus

/-!
# A router is a table

`tableRoute` answers a request from the list of `add` calls alone, without a trie: it looks up
the pattern that the path is led to, and under this pattern the last handler for the request's
method. `route_eq_tableRoute`: this is `Router::route`. `route_spec` says the same without an
algorithm: which pattern a path `Leads` to, and which handler, or which of two 404s, it gets there.
-/

namespace Hound.Http

variable {H : Type}

/-- Some call has this pattern, whatever its method. -/
def IsRoute (calls : List (Registration H)) (segs : List Bytes) : Prop :=
  ∃ a ∈ calls, segments a.pattern = segs

instance (calls : List (Registration H)) (segs : List Bytes) : Decidable (IsRoute calls segs) :=
  inferInstanceAs (Decidable (∃ a ∈ calls, _))

/-- The answer to `req`: the handler, and `*resp` as it is left. -/
def tableRoute (calls : List (Registration H)) (req : HttpRequest) (resp : HttpResponse) :
    Option H × HttpResponse :=
  if calls = [] then (none, resp)
  else
    match choose (followers calls) (segments req.path) with
    | none => (none, .notFound (bytes "404 Not Found: " ++ req.path))
    | some pattern =>
      match lastAdd calls req.method.str pattern with
      | some handler => (handler, resp)
      | none =>
        if IsRoute calls pattern then (none, .notFound (bytes "405 Method Not Allowed"))
        else (none, .notFound (bytes "404 Not Found: " ++ req.path))

theorem isRoute_iff {calls : List (Registration H)} {segs : List Bytes} :
    IsRoute calls segs ↔ ∃ m, (lastAdd calls m segs).isSome := by
  constructor
  · rintro ⟨a, ha, rfl⟩
    obtain ⟨handler, hlast⟩ := lastAdd_isSome ha
    exact ⟨a.method, by rw [hlast]; rfl⟩
  · rintro ⟨m, hm⟩
    obtain ⟨handler, hlast⟩ := Option.isSome_iff_exists.mp hm
    obtain ⟨a, ha, -, hsegs, -⟩ := lastAdd_mem hlast
    exact ⟨a, ha, hsegs⟩

namespace Node

theorem handlers_ne_nil {node : Node H} :
    node.handlers.entries ≠ [] ↔ ∃ m, (node.handlers.lookup m).isSome := by
  simp only [AList.lookup_isSome, AList.mem_keys]
  constructor
  · intro hne
    obtain ⟨⟨m, handler⟩, rest, he⟩ := List.exists_cons_of_ne_nil hne
    exact ⟨m, by rw [AList.keys, he, List.keys_cons]; exact List.mem_cons_self⟩
  · rintro ⟨m, hm⟩ he
    rw [AList.keys, he] at hm
    cases hm

theorem stored_of_descend {root node : Node H} {segs : List Bytes}
    (h : root.descend segs = some node) (m : Bytes) :
    root.stored m segs = node.handlers.lookup m := by
  rw [stored, h]
  rfl

end Node

/-- **The trie is the table.** -/
theorem route_eq_tableRoute (calls : List (Registration H)) (req : HttpRequest)
    (resp : HttpResponse) :
    (Router.addAll calls).route req resp = tableRoute calls req resp := by
  unfold Router.route tableRoute
  cases hroot : (Router.addAll calls).root with
  | none => rw [if_pos ((Router.root_addAll calls).mp hroot)]
  | some root =>
    have hcalls : calls ≠ [] := fun h => by
      rw [(Router.root_addAll calls).mpr h] at hroot
      cases hroot
    have hnexts : (Router.addAll calls).nexts = root.nexts := by
      funext pre
      simp [Router.nexts, hroot]
    have hstored (m : Bytes) (segs : List Bytes) : root.stored m segs = lastAdd calls m segs := by
      rw [← Router.stored_addAll, Router.stored, hroot]
      rfl
    rw [if_neg hcalls]
    simp only
    rw [Node.walk_eq _ (Router.wf_addAll calls root hroot), ← hnexts, choose_addAll]
    cases choose (followers calls) (segments req.path) with
    | none => rfl
    | some pattern =>
      simp only [Option.bind_some]
      cases hnode : root.descend pattern with
      | none =>
        -- no node, so no call has ended there
        have hlast (m : Bytes) : lastAdd calls m pattern = none := by
          rw [← hstored, Node.stored, hnode]
          rfl
        have hno : ¬ IsRoute calls pattern := fun h => by
          obtain ⟨m, hm⟩ := isRoute_iff.mp h
          rw [hlast] at hm
          cases hm
        rw [hlast]
        simp only
        rw [if_neg hno]
      | some node =>
        have hlast (m : Bytes) : lastAdd calls m pattern = node.handlers.lookup m := by
          rw [← hstored, Node.stored_of_descend hnode]
        have hroute : IsRoute calls pattern ↔ node.handlers.entries ≠ [] := by
          rw [isRoute_iff, Node.handlers_ne_nil]
          simp only [hlast]
        rw [hlast]
        simp only
        cases node.handlers.lookup req.method.str with
        | some handler => rfl
        | none => simp only [hroute]

/-- The walk for these segments ends at `pattern`: it goes on from call to call, fits, and nothing
that is tried first is in its way. -/
def Leads (calls : List (Registration H)) (segs pattern : List Bytes) : Prop :=
  Registered (followers calls) pattern ∧ Matches pattern segs ∧
    Unshadowed (followers calls) pattern segs

/-- **What a router answers**, for every list of `add` calls and every request. Where the path is
led, the last handler for the method answers; without one it is a 404, which says "405 Method Not
Allowed" if a call with another method ends there, and "404 Not Found" otherwise. A path that is
led nowhere is a 404, and before the first `add` nothing is said. -/
theorem route_spec (calls : List (Registration H)) (req : HttpRequest) (resp : HttpResponse) :
    (calls = [] → (Router.addAll calls).route req resp = (none, resp)) ∧
    (calls ≠ [] → ∀ pattern, Leads calls (segments req.path) pattern →
      (∀ handler, lastAdd calls req.method.str pattern = some handler →
        (Router.addAll calls).route req resp = (handler, resp)) ∧
      (lastAdd calls req.method.str pattern = none →
        (Router.addAll calls).route req resp = (none, .notFound
          (if IsRoute calls pattern then bytes "405 Method Not Allowed"
            else bytes "404 Not Found: " ++ req.path)))) ∧
    (calls ≠ [] → (∀ pattern, ¬ Leads calls (segments req.path) pattern) →
      (Router.addAll calls).route req resp =
        (none, .notFound (bytes "404 Not Found: " ++ req.path))) := by
  rw [route_eq_tableRoute]
  unfold tableRoute
  refine ⟨fun hnil => if_pos hnil, fun hcalls pattern hleads => ?_, fun hcalls hnowhere => ?_⟩
  · rw [if_neg hcalls, choose_iff.mpr hleads]
    simp only
    constructor
    · intro handler hlast
      rw [hlast]
    · intro hlast
      rw [hlast]
      simp only
      split <;> rfl
  · rw [if_neg hcalls]
    cases hpattern : choose (followers calls) (segments req.path) with
    | none => rfl
    | some pattern => exact absurd (choose_iff.mp hpattern) (hnowhere pattern)

/-- Where every call has a handler, a request without one gets a 404. -/
theorem route_missing {calls : List (Registration H)} (hcalls : calls ≠ [])
    (hhandlers : ∀ a ∈ calls, a.handler.isSome) {req : HttpRequest} {resp : HttpResponse}
    (h : ((Router.addAll calls).route req resp).1 = none) :
    ∃ body, ((Router.addAll calls).route req resp).2 = .notFound body := by
  rw [route_eq_tableRoute] at h ⊢
  unfold tableRoute at h ⊢
  rw [if_neg hcalls] at h ⊢
  cases hpattern : choose (followers calls) (segments req.path) with
  | none => exact ⟨_, rfl⟩
  | some pattern =>
    simp only [hpattern] at h ⊢
    cases hlast : lastAdd calls req.method.str pattern with
    | none =>
      simp only
      split <;> exact ⟨_, rfl⟩
    | some handler =>
      simp only [hlast] at h
      obtain ⟨a, ha, -, -, rfl⟩ := lastAdd_mem hlast
      have hsome := hhandlers a ha
      rw [h] at hsome
      cases hsome

end Hound.Http
