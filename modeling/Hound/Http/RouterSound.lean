import Mathlib.Data.List.Induction
import Hound.Http.RouterTrie

/-!
# What a router answers with

A router is what a list of `add` calls made it (`Router.addAll`). `stored_addAll`: its trie
maps a method and a segment list to the handler of the last such call. `route_sound`: a
handler that `route` returns was registered last for a pattern that matches the path.
-/

namespace Hound.Http

open Hound.Lib

variable {H : Type}

/-- The arguments of one `add`. -/
structure Registration (H : Type) where
  method : Bytes
  pattern : Bytes
  handler : Option H

/-- Position by position a pattern segment is the path segment or starts with `:`; a last
one that starts with `*` may stand for all that remains, which is at least one segment. -/
def Matches : (pattern path : List Bytes) → Prop
  | [], [] => True
  | p :: ps, s :: segs => (ps = [] ∧ IsWildcard p) ∨ ((p = s ∨ IsParam p) ∧ Matches ps segs)
  | _, _ => False

instance Matches.decidable : ∀ pattern path, Decidable (Matches pattern path)
  | [], [] => .isTrue trivial
  | [], _ :: _ => .isFalse id
  | _ :: _, [] => .isFalse id
  | p :: ps, s :: segs =>
    have := Matches.decidable ps segs
    inferInstanceAs (Decidable ((ps = [] ∧ IsWildcard p) ∨ ((p = s ∨ IsParam p) ∧ Matches ps segs)))

/-- The handler of the last call for this method and these segments. -/
def lastAdd (regs : List (Registration H)) (method : Bytes) (segs : List Bytes) :
    Option (Option H) :=
  (regs.reverse.find? fun a => a.method = method ∧ segments a.pattern = segs).map (·.handler)

/-- The segments that the registered patterns have behind `pre`, in the order of the calls. -/
def followers (regs : List (Registration H)) (pre : List Bytes) : List Bytes :=
  regs.filterMap fun a => next? pre (segments a.pattern)

namespace Router

def addAll (regs : List (Registration H)) : Router H :=
  regs.foldl (fun r a => r.add a.method a.pattern a.handler) {}

def stored (r : Router H) (method : Bytes) (segs : List Bytes) : Option (Option H) :=
  r.root.bind (·.stored method segs)

def nexts (r : Router H) (pre : List Bytes) : List Bytes :=
  (r.root.map (·.nexts pre)).getD []

def Wf (r : Router H) : Prop := ∀ root ∈ r.root, root.Wf

theorem Wf.add {r : Router H} (h : r.Wf) (method pattern : Bytes) (handler : Option H) :
    (r.add method pattern handler).Wf := by
  intro root hroot
  cases hroot
  apply Node.Wf.add method handler _
  cases hr : r.root with
  | none => exact .ofSegment []
  | some node => exact h node hr

theorem stored_add (r : Router H) (method pattern : Bytes) (handler : Option H) (m : Bytes)
    (segs : List Bytes) :
    (r.add method pattern handler).stored m segs =
      if m = method ∧ segs = segments pattern then some handler else r.stored m segs := by
  apply (Node.stored_add method handler m (segments pattern) segs _).trans
  unfold stored
  cases r.root with
  | none => exact congrArg _ (Node.stored_ofSegment [] m segs)
  | some node => rfl

theorem nexts_add (r : Router H) (method pattern : Bytes) (handler : Option H)
    (pre : List Bytes) :
    (r.add method pattern handler).nexts pre =
      ((next? pre (segments pattern)).map (insertEnd (r.nexts pre))).getD (r.nexts pre) := by
  apply (Node.nexts_add method handler (segments pattern) pre _).trans
  unfold nexts
  cases r.root with
  | none => rw [show (none.getD {} : Node H) = .ofSegment [] from rfl, Node.nexts_ofSegment]; rfl
  | some node => rfl

/-- With a trie, either there is an entry and `*resp` is left alone, or there is none and it
says 404. -/
theorem route_cases {r : Router H} (h : r.Wf) (hroot : r.root ≠ none) (req : HttpRequest)
    (resp : HttpResponse) :
    (∃ handler, (choose r.nexts (segments req.path)).bind (r.stored req.method.str) =
        some handler ∧ r.route req resp = (handler, resp)) ∨
    ((choose r.nexts (segments req.path)).bind (r.stored req.method.str) = none ∧
      ∃ resp', r.route req resp = (none, resp') ∧ resp'.statusCode = 404) := by
  obtain ⟨root, hr⟩ := Option.ne_none_iff_exists'.mp hroot
  have hnexts : r.nexts = root.nexts := by funext pre; simp [nexts, hr]
  have hstored : r.stored = root.stored := by funext m segs; simp [stored, hr]
  unfold route
  rw [hr, hnexts, hstored]
  dsimp only
  rw [Node.walk_eq _ (h root hr)]
  cases choose root.nexts (segments req.path) with
  | none => exact .inr ⟨rfl, _, rfl, rfl⟩
  | some pattern =>
    simp only [Option.bind_some, Node.stored]
    cases root.descend pattern with
    | none => exact .inr ⟨rfl, _, rfl, rfl⟩
    | some node =>
      simp only [Option.bind_some]
      cases node.handlers.lookup req.method.str with
      | some handler => exact .inl ⟨handler, rfl, rfl⟩
      | none =>
        refine .inr ⟨rfl, ?_⟩
        simp only
        split <;> exact ⟨_, rfl, rfl⟩

theorem route_fst {r : Router H} (h : r.Wf) (req : HttpRequest) (resp : HttpResponse) :
    (r.route req resp).1 =
      ((choose r.nexts (segments req.path)).bind (r.stored req.method.str)).join := by
  by_cases hroot : r.root = none
  · have hstored : ∀ segs, r.stored req.method.str segs = none := by simp [stored, hroot]
    rw [route, hroot]
    cases choose r.nexts (segments req.path) <;> simp [hstored]
  · obtain ⟨handler, hent, hr⟩ | ⟨hent, _, hr, -⟩ := route_cases h hroot req resp
    · rw [hr, hent]
      rfl
    · rw [hr, hent]
      rfl

/-! ## After any calls -/

theorem addAll_concat (regs : List (Registration H)) (a : Registration H) :
    addAll (regs ++ [a]) = (addAll regs).add a.method a.pattern a.handler :=
  List.foldl_concat ..

theorem wf_addAll (regs : List (Registration H)) : (addAll regs).Wf := by
  induction regs using List.reverseRecOn with
  | nil => intro root hroot; cases hroot
  | append_singleton regs a ih =>
    rw [addAll_concat]
    exact Wf.add ih a.method a.pattern a.handler

/-- **The trie is a map from method and segments to the last handler.** -/
theorem stored_addAll (regs : List (Registration H)) (m : Bytes) (segs : List Bytes) :
    (addAll regs).stored m segs = lastAdd regs m segs := by
  induction regs using List.reverseRecOn with
  | nil => rfl
  | append_singleton regs a ih =>
    rw [addAll_concat, stored_add, ih, lastAdd, lastAdd, List.reverse_append,
      List.reverse_singleton, List.singleton_append, List.find?_cons]
    by_cases h : m = a.method ∧ segs = segments a.pattern
    · simp [h]
    · have h' : ¬ (a.method = m ∧ segments a.pattern = segs) := fun h' => h ⟨h'.1.symm, h'.2.symm⟩
      simp [h, h']

theorem nexts_addAll (regs : List (Registration H)) (pre : List Bytes) :
    (addAll regs).nexts pre = (followers regs pre).foldl insertEnd [] := by
  induction regs using List.reverseRecOn with
  | nil => rfl
  | append_singleton regs a ih =>
    rw [addAll_concat, nexts_add, ih, followers, followers, List.filterMap_append]
    cases h : next? pre (segments a.pattern) <;> simp [h]

end Router

/-! ## Soundness -/

theorem pick_eq_some {names : List Bytes} {s p : Bytes} (h : pick names s = some p) :
    p ∈ names ∧ (p = s ∨ IsParam p ∨ IsWildcard p) := by
  rcases Option.or_eq_some_iff.mp h with h | ⟨-, h⟩
  · exact ⟨List.mem_of_find?_eq_some h, .inl (by simpa using List.find?_some h)⟩
  · rcases Option.or_eq_some_iff.mp h with h | ⟨-, h⟩
    · exact ⟨List.mem_of_find?_eq_some h, .inr (.inl (by simpa using List.find?_some h))⟩
    · exact ⟨List.mem_of_find?_eq_some h, .inr (.inr (by simpa using List.find?_some h))⟩

theorem choose_matches : ∀ {segs : List Bytes} {nexts : List Bytes → List Bytes}
    {pattern : List Bytes}, choose nexts segs = some pattern → Matches pattern segs
  | [], _, _, h => by cases h; trivial
  | s :: segs, nexts, pattern, h => by
    obtain ⟨p, hp, h⟩ := Option.bind_eq_some_iff.mp h
    obtain ⟨-, hp⟩ := pick_eq_some hp
    split at h
    · next hw =>
      cases h
      exact .inl ⟨rfl, hw.2⟩
    · next hw =>
      obtain ⟨ps, hps, rfl⟩ := Option.map_eq_some_iff.mp h
      refine .inr ⟨?_, choose_matches hps⟩
      rcases hp with hp | hp | hp
      · exact .inl hp
      · exact .inr hp
      · exact .inl (not_not.mp fun hne => hw ⟨hne, hp⟩)

theorem lastAdd_mem {regs : List (Registration H)} {m : Bytes} {segs : List Bytes}
    {handler : Option H} (h : lastAdd regs m segs = some handler) :
    ∃ a ∈ regs, a.method = m ∧ segments a.pattern = segs ∧ a.handler = handler := by
  obtain ⟨a, ha, rfl⟩ := Option.map_eq_some_iff.mp h
  have hp := List.find?_some ha
  simp only [decide_eq_true_eq] at hp
  exact ⟨a, List.mem_reverse.mp (List.mem_of_find?_eq_some ha), hp.1, hp.2, rfl⟩

/-- **Router soundness.** The trie holds the last handler of every method and segment
list, an `add` changes no other entry, and a handler that `route` returns is the last one
for the request's method and a pattern that matches its path. -/
theorem route_sound (regs : List (Registration H)) :
    (∀ m segs, (Router.addAll regs).stored m segs = lastAdd regs m segs) ∧
    (∀ (a : Registration H) (m : Bytes) (segs : List Bytes),
      ¬ (m = a.method ∧ segs = segments a.pattern) →
      ((Router.addAll regs).add a.method a.pattern a.handler).stored m segs =
        (Router.addAll regs).stored m segs) ∧
    ∀ (req : HttpRequest) (resp : HttpResponse) (h : H),
      ((Router.addAll regs).route req resp).1 = some h →
      ∃ pattern : Bytes, lastAdd regs req.method.str (segments pattern) = some (some h) ∧
        Matches (segments pattern) (segments req.path) := by
  refine ⟨Router.stored_addAll regs, fun a m segs hne => ?_, fun req resp h hr => ?_⟩
  · rw [Router.stored_add, if_neg hne]
  · rw [Router.route_fst (Router.wf_addAll regs), Option.join_eq_some_iff] at hr
    obtain ⟨segs, hsegs, hlast⟩ := Option.bind_eq_some_iff.mp hr
    rw [Router.stored_addAll] at hlast
    obtain ⟨a, -, -, rfl, -⟩ := lastAdd_mem hlast
    exact ⟨a.pattern, hlast, choose_matches hsegs⟩

end Hound.Http
