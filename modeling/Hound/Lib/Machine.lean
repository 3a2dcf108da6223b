import Mathlib.Data.List.Basic

/-!
# Partial machines and their runs

A `Machine` has an initial state and a partial step: `step s i = none` says that
the caller may not make call `i` in `s`. `run` folds a list of calls.
`Machine.invariant` carries a step-preserved property to the end of a run,
`Sim.run` carries a simulation along a run, and `always_iff_each` turns a
property that one step keeps exactly under a side condition into the same
equivalence for whole runs.
-/

namespace Hound.Lib

structure Machine (σ ι : Type*) where
  init : σ
  step : σ → ι → Option σ

namespace Machine

variable {σ α ι : Type*} (M : Machine σ ι)

def runFrom : σ → List ι → Option σ
  | s, [] => some s
  | s, i :: is => (M.step s i).bind fun s' => runFrom s' is

def run (is : List ι) : Option σ := M.runFrom M.init is

/-- `P` holds of every state the run of `is` from `s` visits. -/
def AlwaysFrom (P : σ → Prop) : σ → List ι → Prop
  | s, [] => P s
  | s, i :: is => P s ∧ ∀ s', M.step s i = some s' → AlwaysFrom P s' is

/-- `C` holds of every call of the run of `is` from `s`, in the state it is made in. -/
def EachFrom (C : σ → ι → Prop) : σ → List ι → Prop
  | _, [] => True
  | s, i :: is => C s i ∧ ∀ s', M.step s i = some s' → EachFrom C s' is

def Always (P : σ → Prop) (is : List ι) : Prop := M.AlwaysFrom P M.init is

def Each (C : σ → ι → Prop) (is : List ι) : Prop := M.EachFrom C M.init is

variable {M}

theorem runFrom_cons {s s' : σ} {i : ι} {is : List ι} (h : M.runFrom s (i :: is) = some s') :
    ∃ s₁, M.step s i = some s₁ ∧ M.runFrom s₁ is = some s' :=
  Option.bind_eq_some_iff.mp h

theorem runFrom_one {i : ι} {s s' : σ} (h : M.step s i = some s') : M.runFrom s [i] = some s' :=
  Option.bind_eq_some_iff.mpr ⟨s', h, rfl⟩

theorem runFrom_append {is js : List ι} {s s₁ s' : σ} (h : M.runFrom s is = some s₁)
    (h' : M.runFrom s₁ js = some s') : M.runFrom s (is ++ js) = some s' := by
  induction is generalizing s with
  | nil =>
    cases h
    exact h'
  | cons i is ih =>
    obtain ⟨s₂, h1, h2⟩ := runFrom_cons h
    exact Option.bind_eq_some_iff.mpr ⟨s₂, h1, ih h2⟩

theorem runFrom_concat {i : ι} {is : List ι} {s s₁ s' : σ} (h : M.runFrom s is = some s₁)
    (h' : M.step s₁ i = some s') : M.runFrom s (is ++ [i]) = some s' := by
  induction is generalizing s with
  | nil =>
    cases h
    exact Option.bind_eq_some_iff.mpr ⟨s', h', rfl⟩
  | cons j is ih =>
    obtain ⟨s₂, h1, h2⟩ := runFrom_cons h
    exact Option.bind_eq_some_iff.mpr ⟨s₂, h1, ih h2⟩

theorem run_concat {i : ι} {is : List ι} {s s' : σ} (h : M.run is = some s)
    (h' : M.step s i = some s') : M.run (is ++ [i]) = some s' := runFrom_concat h h'

/-- `I` is kept by every step. -/
def Kept (M : Machine σ ι) (I : σ → Prop) : Prop :=
  ∀ {s s' : σ} {i : ι}, I s → M.step s i = some s' → I s'

theorem Kept.runFrom {I : σ → Prop} (hk : M.Kept I) :
    ∀ {is : List ι} {s s' : σ}, I s → M.runFrom s is = some s' → I s'
  | [], _, _, hI, h => by cases h; exact hI
  | _ :: _, _, _, hI, h => by
    obtain ⟨s₁, h1, h2⟩ := runFrom_cons h
    exact hk.runFrom (hk hI h1) h2

theorem invariant {I : σ → Prop} (h0 : I M.init) (hk : M.Kept I) {is : List ι} {s : σ}
    (h : M.run is = some s) : I s := hk.runFrom h0 h

/-- What the calls made so far and the state have to do with each other, call after call. -/
theorem history {I : List ι → σ → Prop} (h0 : I [] M.init)
    (hk : ∀ {past : List ι} {s s' : σ} {i : ι}, I past s → M.step s i = some s' →
      I (past ++ [i]) s') {is : List ι} {s : σ} (h : M.run is = some s) : I is s := by
  suffices hfrom : ∀ (is past : List ι) {s s' : σ}, I past s → M.runFrom s is = some s' →
      I (past ++ is) s' from hfrom is [] h0 h
  intro is
  induction is with
  | nil =>
    intro past s s' hI h
    cases h
    rwa [List.append_nil]
  | cons i is ih =>
    intro past s s' hI h
    obtain ⟨s₁, h1, h2⟩ := runFrom_cons h
    have hrest := ih (past ++ [i]) (hk hI h1) h2
    rwa [List.append_assoc] at hrest

theorem AlwaysFrom.head {P : σ → Prop} : ∀ {is : List ι} {s : σ}, M.AlwaysFrom P s is → P s
  | [], _, h => h
  | _ :: _, _, h => h.1

theorem AlwaysFrom.mono {P Q : σ → Prop} (hPQ : ∀ s, P s → Q s) :
    ∀ {is : List ι} {s : σ}, M.AlwaysFrom P s is → M.AlwaysFrom Q s is
  | [], _, h => hPQ _ h
  | _ :: _, _, h => ⟨hPQ _ h.1, fun s' hs => (h.2 s' hs).mono hPQ⟩

theorem EachFrom.and {C D : σ → ι → Prop} : ∀ {is : List ι} {s : σ}, M.EachFrom C s is →
    M.EachFrom D s is → M.EachFrom (fun s i => C s i ∧ D s i) s is
  | [], _, _, _ => trivial
  | _ :: _, _, hC, hD => ⟨⟨hC.1, hD.1⟩, fun s' hs => (hC.2 s' hs).and (hD.2 s' hs)⟩

/-- A property that a step keeps exactly when the call meets `C` holds along a
run exactly when every call of the run meets `C`. -/
theorem alwaysFrom_iff_eachFrom {I P : σ → Prop} {C : σ → ι → Prop} (hk : M.Kept I)
    (hstep : ∀ {s s' : σ} {i : ι}, I s → P s → M.step s i = some s' → (P s' ↔ C s i)) :
    ∀ {is : List ι} {s t : σ}, I s → P s → M.runFrom s is = some t →
      (M.AlwaysFrom P s is ↔ M.EachFrom C s is)
  | [], _, _, _, hP, _ => ⟨fun _ => trivial, fun _ => hP⟩
  | i :: is, s, t, hI, hP, h => by
    obtain ⟨s₁, h1, h2⟩ := runFrom_cons h
    have hiff := hstep hI hP h1
    have ih (hP₁ : P s₁) := alwaysFrom_iff_eachFrom hk hstep (hk hI h1) hP₁ h2
    simp only [AlwaysFrom, EachFrom, h1, Option.some.injEq, forall_eq']
    constructor
    · rintro ⟨-, h3⟩
      exact ⟨hiff.mp h3.head, (ih h3.head).mp h3⟩
    · rintro ⟨h3, h4⟩
      exact ⟨hP, (ih (hiff.mpr h3)).mpr h4⟩

theorem always_iff_each {I P : σ → Prop} {C : σ → ι → Prop} (h0 : I M.init) (hP : P M.init)
    (hk : M.Kept I)
    (hstep : ∀ {s s' : σ} {i : ι}, I s → P s → M.step s i = some s' → (P s' ↔ C s i))
    {is : List ι} {t : σ} (h : M.run is = some t) : M.Always P is ↔ M.Each C is :=
  alwaysFrom_iff_eachFrom hk hstep h0 hP h

theorem Kept.alwaysFrom_congr {I P Q : σ → Prop} (hk : M.Kept I)
    (hiff : ∀ {s : σ}, I s → (P s ↔ Q s)) :
    ∀ {is : List ι} {s : σ}, I s → (M.AlwaysFrom P s is ↔ M.AlwaysFrom Q s is)
  | [], _, hI => hiff hI
  | _ :: _, _, hI => and_congr (hiff hI) (forall_congr' fun _ =>
      forall_congr' fun hs => hk.alwaysFrom_congr hiff (hk hI hs))

theorem always_congr {I P Q : σ → Prop} (h0 : I M.init) (hk : M.Kept I)
    (hiff : ∀ {s : σ}, I s → (P s ↔ Q s)) (is : List ι) : M.Always P is ↔ M.Always Q is :=
  hk.alwaysFrom_congr hiff h0

/-- Conditions on calls that agree where `I` holds agree along a run. -/
theorem Kept.eachFrom_congr {I : σ → Prop} {C D : σ → ι → Prop} (hk : M.Kept I)
    (hiff : ∀ {s : σ} {i : ι}, I s → (C s i ↔ D s i)) :
    ∀ {is : List ι} {s : σ}, I s → (M.EachFrom C s is ↔ M.EachFrom D s is)
  | [], _, _ => Iff.rfl
  | _ :: _, _, hI => and_congr (hiff hI) (forall_congr' fun _ =>
      forall_congr' fun hs => hk.eachFrom_congr hiff (hk hI hs))

theorem each_congr {I : σ → Prop} {C D : σ → ι → Prop} (h0 : I M.init) (hk : M.Kept I)
    (hiff : ∀ {s : σ} {i : ι}, I s → (C s i ↔ D s i)) (is : List ι) :
    M.Each C is ↔ M.Each D is := hk.eachFrom_congr hiff h0

/-- Conditions that agree on the calls that can be made agree along a run. -/
theorem eachFrom_congr_of_run {C D : σ → ι → Prop}
    (hiff : ∀ {s s' : σ} {i : ι}, M.step s i = some s' → (C s i ↔ D s i)) :
    ∀ {is : List ι} {s t : σ}, M.runFrom s is = some t → (M.EachFrom C s is ↔ M.EachFrom D s is)
  | [], _, _, _ => Iff.rfl
  | _ :: _, _, _, h => by
    obtain ⟨s₁, h1, h2⟩ := runFrom_cons h
    have ih := eachFrom_congr_of_run hiff h2
    simp only [EachFrom, h1, Option.some.injEq, forall_eq']
    exact and_congr (hiff h1) ih

/-- `J` holds along a run whose calls all meet a condition under which a step keeps it. -/
theorem alwaysFrom_of_eachFrom {J : σ → Prop} {C : σ → ι → Prop}
    (hstep : ∀ {s s' : σ} {i : ι}, J s → C s i → M.step s i = some s' → J s') :
    ∀ {is : List ι} {s : σ}, J s → M.EachFrom C s is → M.AlwaysFrom J s is
  | [], _, hJ, _ => hJ
  | _ :: _, _, hJ, hC =>
    ⟨hJ, fun s' hs => alwaysFrom_of_eachFrom hstep (hstep hJ hC.1 hs) (hC.2 s' hs)⟩

/-- `J` holds along a run when a call of a kind `D` that meets `C` and leads to a state
with `Q` keeps it. -/
theorem alwaysFrom_of_each {J Q : σ → Prop} {C : σ → ι → Prop} {D : ι → Prop}
    (hstep : ∀ {s s' : σ} {i : ι}, J s → D i → C s i → Q s' → M.step s i = some s' → J s') :
    ∀ {is : List ι} {s : σ}, (∀ i ∈ is, D i) → J s → M.AlwaysFrom Q s is → M.EachFrom C s is →
      M.AlwaysFrom J s is
  | [], _, _, hJ, _, _ => hJ
  | i :: is, s, hD, hJ, hQ, hC => by
    obtain ⟨hi, his⟩ := List.forall_mem_cons.mp hD
    refine ⟨hJ, fun s' hs => ?_⟩
    have hQ' := hQ.2 s' hs
    exact alwaysFrom_of_each hstep his (hstep hJ hi hC.1 hQ'.head hs) hQ' (hC.2 s' hs)

/-- What holds of a call whenever the state behind it meets `P` holds of every call of a run
through states with `P`. -/
theorem Kept.eachFrom_of_always {I P : σ → Prop} {C : σ → ι → Prop} (hk : M.Kept I)
    (hstep : ∀ {s : σ} {i : ι}, I s → (∀ s', M.step s i = some s' → P s') → C s i) :
    ∀ {is : List ι} {s : σ}, I s → M.AlwaysFrom P s is → M.EachFrom C s is
  | [], _, _, _ => trivial
  | i :: is, s, hI, hA => by
    refine ⟨hstep hI fun s' hs => (hA.2 s' hs).head, fun s' hs => ?_⟩
    exact hk.eachFrom_of_always hstep (hk hI hs) (hA.2 s' hs)

theorem each_of_always {I P : σ → Prop} {C : σ → ι → Prop} (h0 : I M.init) (hk : M.Kept I)
    (hstep : ∀ {s : σ} {i : ι}, I s → (∀ s', M.step s i = some s' → P s') → C s i)
    {is : List ι} (h : M.Always P is) : M.Each C is := hk.eachFrom_of_always hstep h0 h

/-- `R` relates the abstract machine `A` to the concrete machine `M`. -/
structure Sim (A : Machine α ι) (M : Machine σ ι) (R : α → σ → Prop) : Prop where
  init : R A.init M.init
  step : ∀ {a : α} {s s' : σ} {i : ι}, R a s → M.step s i = some s' →
    ∃ a', A.step a i = some a' ∧ R a' s'

theorem Sim.runFrom {A : Machine α ι} {R : α → σ → Prop} (S : Sim A M R) :
    ∀ {is : List ι} {a : α} {s s' : σ}, R a s → M.runFrom s is = some s' →
      ∃ a', A.runFrom a is = some a' ∧ R a' s'
  | [], a, _, _, hR, h => by cases h; exact ⟨a, rfl, hR⟩
  | i :: is, a, _, _, hR, h => by
    obtain ⟨s₁, h1, h2⟩ := runFrom_cons h
    obtain ⟨a₁, ha, hR₁⟩ := S.step hR h1
    obtain ⟨a', ha', hR'⟩ := S.runFrom hR₁ h2
    exact ⟨a', by simp [Machine.runFrom, ha, ha'], hR'⟩

/-- Along every run of the concrete machine the abstract one makes the same
calls and ends in a related state. -/
theorem Sim.run {A : Machine α ι} {R : α → σ → Prop} (S : Sim A M R) {is : List ι} {s : σ}
    (h : M.run is = some s) : ∃ a, A.run is = some a ∧ R a s :=
  S.runFrom S.init h

end Machine

end Hound.Lib
