import Mathlib.Data.List.Find
import Hound.Http.Router
import Hound.Lib.Upsert

/-!
# The trie behind a `Router`

Two views say all that `route` can see of a trie: `stored method segs`, the handler at the
end of the exact path `segs`, and `nexts pre`, the segments that go on from `pre`, oldest
first. `add` changes one entry of the first and adds at most one name to the second;
`walk_eq` reads the greedy walk off them.
-/

namespace Hound.Http

open Hound.Lib

variable {H : Type}

def IsParam (seg : Bytes) : Prop := seg.head? = some 58

def IsWildcard (seg : Bytes) : Prop := seg.head? = some 42

instance (seg : Bytes) : Decidable (IsParam seg) := inferInstanceAs (Decidable (_ = _))

instance (seg : Bytes) : Decidable (IsWildcard seg) := inferInstanceAs (Decidable (_ = _))

theorem IsParam.not_wildcard {seg : Bytes} (h : IsParam seg) : ¬ IsWildcard seg := by
  unfold IsParam at h
  simp [IsWildcard, h]

/-- The segment of `segs` behind the prefix `pre`. -/
def next? : (pre segs : List Bytes) → Option Bytes
  | [], segs => segs.head?
  | _ :: _, [] => none
  | p :: pre, s :: segs => if p = s then next? pre segs else none

namespace Node

def child (node : Node H) (seg : Bytes) : Option (Node H) :=
  node.children.find? (·.segment = seg)

def names (node : Node H) : List Bytes := node.children.map (·.segment)

def descend : List Bytes → Node H → Option (Node H)
  | [], node => some node
  | seg :: segs, node => (node.child seg).bind (descend segs)

def stored (node : Node H) (method : Bytes) (segs : List Bytes) : Option (Option H) :=
  (node.descend segs).bind (·.handlers.lookup method)

def nexts (node : Node H) (pre : List Bytes) : List Bytes :=
  ((node.descend pre).map names).getD []

/-- Siblings have distinct segments and every node's flags follow from its segment. -/
inductive Wf : Node H → Prop where
  | mk {node : Node H} (distinct : node.names.Nodup)
      (param : ∀ c ∈ node.children, c.isParam = decide (IsParam c.segment))
      (wildcard : ∀ c ∈ node.children, c.isWildcard = decide (IsWildcard c.segment))
      (child : ∀ c ∈ node.children, c.Wf) : node.Wf

/-! ## `add` -/

@[simp] theorem segment_add (method : Bytes) (handler : Option H) (segs : List Bytes)
    (node : Node H) : (node.add method handler segs).segment = node.segment := by
  cases segs <;> simp only [add]
  split <;> rfl

@[simp] theorem isParam_add (method : Bytes) (handler : Option H) (segs : List Bytes)
    (node : Node H) : (node.add method handler segs).isParam = node.isParam := by
  cases segs <;> simp only [add]
  split <;> rfl

@[simp] theorem isWildcard_add (method : Bytes) (handler : Option H) (segs : List Bytes)
    (node : Node H) : (node.add method handler segs).isWildcard = node.isWildcard := by
  cases segs <;> simp only [add]
  split <;> rfl

variable (method : Bytes) (handler : Option H)

theorem add_cons (seg : Bytes) (segs : List Bytes) (node : Node H) :
    node.add method handler (seg :: segs) = { node with
      children := upsert segment seg (add method handler segs)
        (add method handler segs (ofSegment seg)) node.children } := by
  rw [add, upsert]
  cases node.children.findIdx? (·.segment = seg) <;> rfl

theorem child_add_self (seg : Bytes) (segs : List Bytes) (node : Node H) :
    (node.add method handler (seg :: segs)).child seg =
      some (((node.child seg).getD (ofSegment seg)).add method handler segs) := by
  rw [add_cons]
  refine (find?_upsert_self (by simp) (by simp [ofSegment]) node.children).trans ?_
  unfold child
  cases node.children.find? (·.segment = seg) <;> rfl

theorem child_add_ne {s seg : Bytes} (hs : s ≠ seg) (segs : List Bytes) (node : Node H) :
    (node.add method handler (seg :: segs)).child s = node.child s := by
  rw [add_cons]
  exact find?_upsert_ne (by simp) (by simp [ofSegment]) hs node.children

theorem names_add (seg : Bytes) (segs : List Bytes) (node : Node H) :
    (node.add method handler (seg :: segs)).names = insertEnd node.names seg := by
  rw [add_cons]
  exact map_key_upsert (by simp) (by simp [ofSegment]) node.children

theorem handlers_add (seg : Bytes) (segs : List Bytes) (node : Node H) :
    (node.add method handler (seg :: segs)).handlers = node.handlers := by
  rw [add_cons]

theorem Wf.ofSegment (seg : Bytes) : (Node.ofSegment seg : Node H).Wf :=
  ⟨List.nodup_nil, by simp [Node.ofSegment], by simp [Node.ofSegment], by simp [Node.ofSegment]⟩

theorem Wf.add (segs : List Bytes) {node : Node H} (h : node.Wf) :
    (node.add method handler segs).Wf := by
  induction segs generalizing node with
  | nil =>
    obtain ⟨hd, hp, hw, hc⟩ := h
    exact ⟨hd, hp, hw, hc⟩
  | cons seg segs ih =>
    obtain ⟨hd, hp, hw, hc⟩ := h
    refine ⟨?_, ?_, ?_, ?_⟩
    · rw [names_add]
      exact nodup_insertEnd hd
    all_goals rw [add_cons]
    · exact forall_mem_upsert hp (by simpa using hp) (by simp [Node.ofSegment, IsParam])
    · exact forall_mem_upsert hw (by simpa using hw) (by simp [Node.ofSegment, IsWildcard])
    · exact forall_mem_upsert hc (fun c hm => ih (hc c hm)) (ih (.ofSegment seg))

theorem stored_cons (node : Node H) (m seg : Bytes) (segs : List Bytes) :
    node.stored m (seg :: segs) = (node.child seg).bind (·.stored m segs) := by
  simp only [stored, descend]
  cases node.child seg <;> rfl

theorem nexts_cons {node c : Node H} {seg : Bytes} (h : node.child seg = some c)
    (pre : List Bytes) : node.nexts (seg :: pre) = c.nexts pre := by
  simp [nexts, descend, h]

theorem nexts_cons_none {node : Node H} {seg : Bytes} (h : node.child seg = none)
    (pre : List Bytes) : node.nexts (seg :: pre) = [] := by
  simp [nexts, descend, h]

theorem stored_ofSegment (seg m : Bytes) (segs : List Bytes) :
    (ofSegment seg : Node H).stored m segs = none := by
  cases segs <;> rfl

theorem nexts_ofSegment (seg : Bytes) (pre : List Bytes) :
    (ofSegment seg : Node H).nexts pre = [] := by
  cases pre <;> rfl

/-- **An `add` sets one entry and leaves the others.** -/
theorem stored_add (m : Bytes) : ∀ (segs segs' : List Bytes) (node : Node H),
    (node.add method handler segs).stored m segs' =
      if m = method ∧ segs' = segs then some handler else node.stored m segs'
  | [], [], node => by
    by_cases h : m = method
    · subst h; simp [stored, descend, add]
    · simp [stored, descend, add, h]
  | [], _ :: _, node => by simp [stored, descend, add, child]
  | seg :: segs, [], node => by simp [stored, descend, handlers_add]
  | seg :: segs, s :: segs', node => by
    rw [stored_cons, stored_cons]
    by_cases hs : s = seg
    · subst hs
      rw [child_add_self, Option.bind_some, stored_add m segs segs']
      simp only [List.cons.injEq, true_and]
      cases node.child s <;> simp [stored_ofSegment]
    · rw [child_add_ne _ _ hs]
      simp [hs]

/-- An `add` puts the segment behind `pre`, if there is one, among those that go on from `pre`. -/
theorem nexts_add : ∀ (segs pre : List Bytes) (node : Node H),
    (node.add method handler segs).nexts pre =
      ((next? pre segs).map (insertEnd (node.nexts pre))).getD (node.nexts pre)
  | [], [], node => rfl
  | [], _ :: _, node => rfl
  | seg :: segs, [], node => names_add ..
  | seg :: segs, s :: pre, node => by
    by_cases hs : s = seg
    · subst hs
      rw [nexts_cons (child_add_self method handler s segs node), nexts_add segs pre]
      cases hc : node.child s with
      | none => simp [next?, nexts_ofSegment, nexts_cons_none hc]
      | some c => simp [next?, nexts_cons hc]
    · have hchild := child_add_ne method handler hs segs node
      cases hc : node.child s with
      | none => rw [nexts_cons_none (hchild.trans hc), nexts_cons_none hc]; simp [next?, hs]
      | some c => rw [nexts_cons (hchild.trans hc), nexts_cons hc]; simp [next?, hs]

end Node

/-! ## The walk -/

/-- Which of the segments that go on the walk takes for the path segment `s`. -/
def pick (names : List Bytes) (s : Bytes) : Option Bytes :=
  (names.find? (· = s)).or ((names.find? (IsParam ·)).or (names.find? (IsWildcard ·)))

/-- The pattern the walk follows, where `nexts pre` are the segments that go on from `pre`.
A `*` segment that is not the path's own takes all that is left. -/
def choose : (nexts : List Bytes → List Bytes) → List Bytes → Option (List Bytes)
  | _, [] => some []
  | nexts, s :: segs =>
    (pick (nexts []) s).bind fun p =>
      if p ≠ s ∧ IsWildcard p then some [p]
      else (choose (fun pre => nexts (p :: pre)) segs).map (p :: ·)

namespace Node

theorem child_of_mem {node c : Node H} (h : node.Wf) (hc : c ∈ node.children) :
    node.child c.segment = some c := by
  obtain ⟨hd, -, -, -⟩ := h
  exact find?_key_eq_of_mem hd hc

theorem Wf.find?_isParam {node : Node H} (h : node.Wf) :
    node.children.find? (·.isParam) = node.children.find? fun c => IsParam c.segment := by
  obtain ⟨-, hp, -, -⟩ := h
  exact List.find?_congr hp

theorem Wf.find?_isWildcard {node : Node H} (h : node.Wf) :
    node.children.find? (·.isWildcard) = node.children.find? fun c => IsWildcard c.segment := by
  obtain ⟨-, -, hw, -⟩ := h
  exact List.find?_congr hw

/-- **The walk follows the chosen pattern.** -/
theorem walk_eq : ∀ (segs : List Bytes) {node : Node H}, node.Wf →
    node.walk segs = (choose node.nexts segs).bind (descend · node)
  | [], node, _ => rfl
  | s :: segs, node, h => by
    have hwf : ∀ c ∈ node.children, c.Wf := by obtain ⟨-, -, -, hc⟩ := h; exact hc
    have go {c : Node H} {p : Bytes} (hp : node.child p = some c) (hc : c ∈ node.children) :
        c.walk segs =
          ((choose (fun pre => node.nexts (p :: pre)) segs).map (p :: ·)).bind (descend · node) := by
      rw [walk_eq segs (hwf c hc), funext (nexts_cons hp), Option.bind_map]
      simp [Function.comp_def, descend, hp]
    have hn (p : Bytes → Bool) : (node.nexts []).find? p =
        (node.children.find? fun c => p c.segment).map segment := List.find?_map
    rw [walk, choose, pick, hn, hn, hn, h.find?_isParam, h.find?_isWildcard]
    cases he : node.children.find? (·.segment = s) with
    | some c =>
      have hs : c.segment = s := by simpa using List.find?_some he
      simpa [hs] using go he (List.mem_of_find?_eq_some he)
    | none =>
      cases hp : node.children.find? fun c => IsParam c.segment with
      | some c =>
        have hc := List.mem_of_find?_eq_some hp
        have hpar : IsParam c.segment := by simpa using List.find?_some hp
        simpa [hpar.not_wildcard] using go (child_of_mem h hc) hc
      | none =>
        cases hw : node.children.find? fun c => IsWildcard c.segment with
        | some c =>
          have hc := List.mem_of_find?_eq_some hw
          have hwild : IsWildcard c.segment := by simpa using List.find?_some hw
          have hne : c.segment ≠ s := by simpa using List.find?_eq_none.mp he c hc
          simp [hwild, hne, descend, child_of_mem h hc]
        | none => rfl

end Node

end Hound.Http
