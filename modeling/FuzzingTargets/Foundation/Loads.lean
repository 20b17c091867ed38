import Mathlib.Tactic

namespace FuzzingTargets.Loads
open List

inductive Stop where
  | crash
  | hang
  deriving DecidableEq

inductive Prog (A α : Type) : Type where
  | done (a : α)
  | load (addr : A) (k : UInt8 → Prog A α)
  | store (addr : A) (p : Prog A α)
  | stop (s : Stop)

namespace Prog

variable {A α β : Type}

def bind : Prog A α → (α → Prog A β) → Prog A β
  | .done a, f => f a
  | .load addr k, f => .load addr fun b => (k b).bind f
  | .store addr p, f => .store addr (p.bind f)
  | .stop s, _ => .stop s

instance : Monad (Prog A) where
  pure := .done
  bind := .bind

def run (mem : A → Option UInt8) : Prog A α → Except Stop α
  | .done a => .ok a
  | .load addr k =>
    match mem addr with
    | some b => (k b).run mem
    | none => .error .crash
  | .store _ p => p.run mem
  | .stop s => .error s

def accesses (mem : A → Option UInt8) : Prog A α → List A
  | .done _ => []
  | .load addr k =>
    addr :: match mem addr with
      | some b => (k b).accesses mem
      | none => []
  | .store addr p => addr :: p.accesses mem
  | .stop _ => []

def Safe (mem : A → Option UInt8) (P : A → Prop) (p : Prog A α) : Prop :=
  ∀ a ∈ p.accesses mem, P a

instance (mem : A → Option UInt8) (P : A → Prop) [DecidablePred P] (p : Prog A α) :
    Decidable (Safe mem P p) := by
  unfold Safe
  infer_instance

def fetch (addr : A) : Prog A UInt8 := .load addr .done

def loadBytes : Nat → (Nat → A) → Prog A (List UInt8)
  | 0, _ => .done []
  | n + 1, addr => do
    let b ← fetch (addr 0)
    let bs ← loadBytes n fun i => addr (i + 1)
    pure (b :: bs)

def loadUntil (stopAt : UInt8 → Bool) : Nat → (Nat → A) → Prog A (List UInt8)
  | 0, _ => .done []
  | n + 1, addr => do
    let b ← fetch (addr 0)
    if stopAt b then pure []
    else do
      let bs ← loadUntil stopAt n fun i => addr (i + 1)
      pure (b :: bs)

section

variable {mem mem' : A → Option UInt8} {P Q : A → Prop} {p : Prog A α} {f : α → Prog A β} {addr : A}
  {k : UInt8 → Prog A α} {b : UInt8} {n : Nat} {g : Nat → UInt8} {stopAt : UInt8 → Bool}

@[simp] theorem run_pure (a : α) : (pure a : Prog A α).run mem = .ok a := rfl

@[simp] theorem run_store (addr : A) (p : Prog A α) :
    (Prog.store addr p).run mem = p.run mem := rfl

theorem run_bind : (p >>= f).run mem = p.run mem >>= fun a => (f a).run mem := by
  induction p with
  | done a => rfl
  | load addr k ih =>
    change (Prog.load addr fun b => (k b).bind f).run mem = _
    simp only [run]
    cases mem addr with
    | none => rfl
    | some b => exact ih b
  | store addr p ih => exact ih
  | stop s => rfl

theorem run_bind_ok {b : β} :
    (p >>= f).run mem = .ok b ↔ ∃ a, p.run mem = .ok a ∧ (f a).run mem = .ok b := by
  rw [run_bind]
  cases p.run mem with
  | error e | ok a => simp [Bind.bind,Except.bind]

theorem run_bind_of {a : α} (h : p.run mem = .ok a) : (p >>= f).run mem = (f a).run mem := by
  rw [run_bind,h]
  rfl

@[simp] theorem safe_done (a : α) : Safe mem P (Prog.done a : Prog A α) := by
  simp [Safe,accesses]

@[simp] theorem safe_pure (a : α) : Safe mem P (pure a : Prog A α) := safe_done a

@[simp] theorem safe_stop (s : Stop) : Safe mem P (Prog.stop s : Prog A α) := by
  simp [Safe,accesses]

theorem safe_store {p : Prog A α} : Safe mem P (Prog.store addr p) ↔ P addr ∧ Safe mem P p := by
  simp [Safe,accesses]

theorem safe_load :
    Safe mem P (Prog.load addr k) ↔ P addr ∧ ∀ b, mem addr = some b → Safe mem P (k b) := by
  simp only [Safe,accesses,forall_mem_cons]
  cases mem addr with
  | none | some b => simp

section

variable (h : mem addr = some b)
include h

theorem run_load : (Prog.load addr k).run mem = (k b).run mem := by
  simp [run,h]

theorem safe_load_of : Safe mem P (Prog.load addr k) ↔ P addr ∧ Safe mem P (k b) := by
  simp [safe_load,h]

@[simp] theorem run_fetch : (fetch addr).run mem = .ok b := run_load h

theorem run_fetch_bind {f : UInt8 → Prog A β} : (fetch addr >>= f).run mem = (f b).run mem := run_bind_of (run_fetch h)

theorem safe_fetch_bind {f : UInt8 → Prog A β} :
    Safe mem P (fetch addr >>= f) ↔ P addr ∧ Safe mem P (f b) := safe_load_of h

end

theorem safe_bind :
    Safe mem P (p >>= f) ↔ Safe mem P p ∧ ∀ a, p.run mem = .ok a → Safe mem P (f a) := by
  induction p with
  | done a => simp [Bind.bind,bind,run]
  | load addr k ih =>
    change Safe mem P (Prog.load addr fun b => (k b).bind f) ↔ _
    rw [safe_load,safe_load]
    cases hm : mem addr with
    | none => simp [run,hm]
    | some b =>
      have hb := ih b
      simp only [Option.some.injEq,forall_eq',run_load hm]
      rw [and_assoc,← hb]
      rfl
  | store addr p ih =>
    change Safe mem P (Prog.store addr (p.bind f)) ↔ _
    rw [safe_store,safe_store,and_assoc]
    exact and_congr_right fun _ => ih
  | stop s => simp [Bind.bind,bind,run]

theorem safe_bind_of {a : α} (h : p.run mem = .ok a) :
    Safe mem P (p >>= f) ↔ Safe mem P p ∧ Safe mem P (f a) := by
  simp [safe_bind,h]

theorem run_congr (h : ∀ a ∈ p.accesses mem, mem a = mem' a) :
    p.run mem = p.run mem' ∧ p.accesses mem = p.accesses mem' := by
  induction p with
  | done a | stop s => exact ⟨rfl,rfl⟩
  | store addr p ih =>
    obtain ⟨hrun,hacc⟩ := ih fun a ha => h a (.tail _ ha)
    exact ⟨hrun,congrArg (addr :: ·) hacc⟩
  | load addr k ih =>
    have haddr : mem addr = mem' addr := h addr (by simp [accesses])
    simp only [run,accesses,← haddr] at h ⊢
    cases hm : mem addr with
    | none => exact ⟨rfl,rfl⟩
    | some b =>
      rw [hm] at h
      obtain ⟨hrun,hacc⟩ := ih b fun a ha => h a (.tail _ ha)
      exact ⟨hrun,congrArg (addr :: ·) hacc⟩

theorem run_eq_of_safe (h : Safe mem P p) (hagree : ∀ a, P a → mem a = mem' a) :
    p.run mem = p.run mem' :=
  (run_congr fun a ha => hagree a (h a ha)).1

theorem safe_fetch_null {f : UInt8 → Prog A β} (h : mem addr = none) :
    Safe mem P (fetch addr >>= f) ↔ P addr := by
  change Safe mem P (Prog.load addr fun b => (Prog.done b).bind f) ↔ P addr
  simp [safe_load,h]

section

variable {addr : Nat → A} (h : ∀ i < n, mem (addr i) = some (g i))
include h

theorem run_loadBytes : (loadBytes n addr).run mem = .ok ((range n).map g) := by
  induction n generalizing addr g with
  | zero => rfl
  | succ n ih =>
    have htail := @ih (fun i => g (i + 1)) (fun i => addr (i + 1))
      (fun i hi => h (i + 1) (by omega))
    rw [loadBytes,run_fetch_bind (h 0 (by omega)),run_bind_of htail,run_pure,
      range_succ_eq_map,map_cons,map_map]
    rfl

theorem run_loadUntil : (loadUntil stopAt n addr).run mem =
      .ok (((range n).map g).takeWhile fun b => !stopAt b) := by
  induction n generalizing addr g with
  | zero => rfl
  | succ n ih =>
    have htail := @ih (fun i => g (i + 1)) (fun i => addr (i + 1))
      (fun i hi => h (i + 1) (by omega))
    have hmap : (range (n + 1)).map g = g 0 :: (range n).map fun i => g (i + 1) := by
      rw [range_succ_eq_map,map_cons,map_map]
      rfl
    rw [loadUntil,run_fetch_bind (h 0 (by omega)),hmap]
    cases hs : stopAt (g 0) with
    | true => simp [hs]
    | false =>
      rw [if_neg Bool.false_ne_true,run_bind_of htail]
      simp [hs]

theorem safe_loadUntil : Safe mem P (loadUntil stopAt n addr) ↔
      ∀ i < n, (∀ j < i, stopAt (g j) = false) → P (addr i) := by
  induction n generalizing addr g with
  | zero => simp [loadUntil]
  | succ n ih =>
    have htail := @ih (fun i => g (i + 1)) (fun i => addr (i + 1))
      (fun i hi => h (i + 1) (by omega))
    rw [loadUntil,safe_fetch_bind (h 0 (by omega))]
    cases hs : stopAt (g 0) with
    | true =>
      simp only [if_true,safe_pure,and_true]
      constructor
      · intro hzero i _ hj
        cases i with
        | zero => exact hzero
        | succ i =>
          have := hj 0 (by omega)
          simp [hs] at this
      · intro hall
        exact hall 0 (by omega) (by omega)
    | false =>
      rw [if_neg Bool.false_ne_true,safe_bind]
      simp only [safe_pure,implies_true,and_true,htail]
      constructor
      · rintro ⟨hzero,hrest⟩ i hi hj
        cases i with
        | zero => exact hzero
        | succ i => exact hrest i (by omega) fun j hji => hj (j + 1) (by omega)
      intro hall
      refine ⟨hall 0 (by omega) (by omega),fun i hi hj => hall (i + 1) (by omega) ?_⟩
      intro j hji
      cases j with
      | zero => exact hs
      | succ j => exact hj j (by omega)

end

theorem safe_loadBytes {addr : Nat → A} (h : ∀ i < n, (mem (addr i)).isSome) :
    Safe mem P (loadBytes n addr) ↔ ∀ i < n, P (addr i) := by
  induction n generalizing addr with
  | zero => simp [loadBytes]
  | succ n ih =>
    obtain ⟨b,hb⟩ := Option.isSome_iff_exists.mp (h 0 (by omega))
    have htail := @ih (fun i => addr (i + 1)) (fun i hi => h (i + 1) (by omega))
    rw [loadBytes,safe_fetch_bind hb,safe_bind]
    simp only [safe_pure,implies_true,and_true,htail]
    constructor
    · rintro ⟨hzero,hrest⟩ i hi
      cases i with
      | zero => exact hzero
      | succ i => exact hrest i (by omega)
    · intro hall
      exact ⟨hall 0 (by omega),fun i hi => hall (i + 1) (by omega)⟩

end

def Spec (mem : A → Option UInt8) (P : A → Prop) (p : Prog A α) (fits : Prop)
    (post : α → Prop) : Prop :=
  (Safe mem P p ↔ fits) ∧ ∃ a, p.run mem = .ok a ∧ post a

section

variable {mem : A → Option UInt8} {P : A → Prop} {p : Prog A α} {f : α → Prog A β} {F G : Prop}
  {mid : α → Prop} {post : β → Prop}

theorem Spec.pure {a : α} (h : mid a) : Spec mem P (pure a) True mid :=
  ⟨iff_true_intro (safe_pure a),a,rfl,h⟩

section

variable (hp : Spec mem P p F mid)
include hp

theorem Spec.bind (hf : ∀ a, p.run mem = .ok a → mid a → Spec mem P (f a) G post) :
    Spec mem P (p >>= f) (F ∧ G) post := by
  obtain ⟨hsafe,a,ha,hmid⟩ := hp
  obtain ⟨hsafe',b,hb,hpost⟩ := hf a ha hmid
  refine ⟨?_,b,(run_bind_of ha).trans hb,hpost⟩
  rw [safe_bind_of ha,hsafe,hsafe']

theorem Spec.absorb (hf : ∀ a, p.run mem = .ok a → mid a → ∃ G, (F → G) ∧ Spec mem P (f a) G post) :
    Spec mem P (p >>= f) F post := by
  obtain ⟨hsafe,a,ha,hmid⟩ := hp
  obtain ⟨G,hG,hsafe',b,hb,hpost⟩ := hf a ha hmid
  refine ⟨?_,b,(run_bind_of ha).trans hb,hpost⟩
  rw [safe_bind_of ha,hsafe,hsafe',and_iff_left_of_imp hG]

theorem Spec.congr (h : F ↔ G) : Spec mem P p G mid :=
  ⟨hp.1.trans h,hp.2⟩

theorem Spec.store (addr : A) : Spec mem P (.store addr p) (P addr ∧ F) mid :=
  ⟨by rw [safe_store,hp.1],hp.2⟩

end

theorem Spec.seq (hp : Spec mem P p True mid)
    (hf : ∀ a, p.run mem = .ok a → mid a → Spec mem P (f a) G post) :
    Spec mem P (p >>= f) G post := by
  obtain ⟨hsafe,hrun⟩ := hp.bind hf
  exact ⟨hsafe.trans (and_iff_right trivial),hrun⟩

theorem Spec.fetch {addr : A} {b : UInt8} (h : mem addr = some b) :
    Spec mem P (fetch addr) (P addr) (· = b) :=
  ⟨(safe_load_of h).trans (by simp),b,run_load h,rfl⟩

end

end Prog

end FuzzingTargets.Loads
