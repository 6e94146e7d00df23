import Mathlib.Tactic.Common

/-! Computations that write down what they do. A computation whose fuel runs out has no result, but
what it did until then counts. -/
namespace SwApi.Library
open List Option

structure Trace (ε α : Type) where
  events : List ε
  result : Option α

namespace Trace

variable {ε α β : Type}

def bind (x : Trace ε α) (f : α → Trace ε β) : Trace ε β :=
  match x.result with
  | none => ⟨x.events, none⟩
  | some a => ⟨x.events ++ (f a).events, (f a).result⟩

instance : Monad (Trace ε) where
  pure a := ⟨[], some a⟩
  bind := bind

def emit (e : ε) : Trace ε Unit := ⟨[e], some ()⟩

def stuck : Trace ε α := ⟨[], none⟩

def All (P : ε → Prop) (x : Trace ε α) : Prop := ∀ e ∈ x.events, P e

@[simp] theorem result_pure (a : α) : (pure a : Trace ε α).result = some a := rfl

@[simp] theorem result_emit (e : ε) : (emit e).result = some () := rfl

theorem result_bind (x : Trace ε α) (f : α → Trace ε β) : (x >>= f).result = x.result.bind fun a =>
    (f a).result := by
  show (bind x f).result = _
  rw [bind]
  cases x.result with
  | none | some a => rfl

@[simp] theorem all_pure (a : α) : (pure a : Trace ε α).All P := by
  intro e he
  cases he

@[simp] theorem all_emit (e : ε) : (emit e).All P ↔ P e :=
  forall_mem_singleton

@[simp] theorem all_stuck : (stuck : Trace ε α).All P := by
  intro e he
  cases he

theorem all_bind (x : Trace ε α) (f : α → Trace ε β) :
    (x >>= f).All P ↔ x.All P ∧ ∀ a, x.result = some a → (f a).All P := by
  show (bind x f).All P ↔ _
  rw [bind]
  cases hx : x.result with
  | none => simp [All]
  | some a =>
    rw [All, forall_mem_append]
    simp [All]

theorem all_bind_of_some (h : x.result = some a) (f : α → Trace ε β) :
    (x >>= f).All P ↔ x.All P ∧ (f a).All P := by
  rw [all_bind, h]
  exact and_congr_right fun _ => ⟨fun hall => hall a rfl, fun hf b hb => some.inj hb ▸ hf⟩

@[simp] theorem all_emit_bind (e : ε) (f : Unit → Trace ε β) : (emit e >>= f).All P ↔ P e ∧
    (f ()).All P := by
  rw [all_bind_of_some (result_emit e), all_emit]

variable {f : Nat → α → Trace ε β}

/-- More fuel keeps what was done and a result that was found. -/
structure Grows (x : Nat → Trace ε α) : Prop where
  events : ∀ m n, m ≤ n → (x m).events <+: (x n).events
  result : ∀ m n a, m ≤ n → (x m).result = some a → x n = x m

def Yields (x : Nat → Trace ε α) (a : α) : Prop := ∃ fuel, (x fuel).result = some a

def Always (P : ε → Prop) (x : Nat → Trace ε α) : Prop := ∀ fuel, (x fuel).All P

theorem Grows.const (x : Trace ε α) : Grows fun _ => x :=
  ⟨fun _ _ _ => prefix_rfl, fun _ _ _ _ _ => rfl⟩

theorem bind_of_some {x : Trace ε α} (h : x.result = some a) (f : α → Trace ε β) :
    x >>= f = ⟨x.events ++ (f a).events, (f a).result⟩ := by
  show bind x f = _
  rw [bind, h]

theorem bind_of_none {x : Trace ε α} (h : x.result = none) (f : α → Trace ε β) :
    x >>= f = ⟨x.events, none⟩ := by
  show bind x f = _
  rw [bind, h]

theorem events_le_bind (x : Trace ε α) (f : α → Trace ε β) : x.events <+: (x >>= f).events := by
  cases hx : x.result with
  | none => exact ⟨[], by rw [bind_of_none hx, append_nil]⟩
  | some a =>
    rw [bind_of_some hx]
    exact prefix_append _ _

theorem Grows.bind (hx : Grows x) (hf : ∀ a, Grows fun fuel => f fuel a) :
    Grows fun fuel => x fuel >>= f fuel := by
  constructor
  · intro m n hle
    cases hm : (x m).result with
    | none =>
      rw [bind_of_none hm]
      exact (hx.events m n hle).trans (events_le_bind (x n) (f n))
    | some a =>
      have hn := hx.result m n a hle hm
      rw [bind_of_some hm, bind_of_some (hn ▸ hm), hn]
      exact (prefix_append_right_inj _).2 ((hf a).events m n hle)
  · intro m n b hle hb
    rw [result_bind] at hb
    obtain ⟨a, hm, hb⟩ := bind_eq_some_iff.1 hb
    have hn := hx.result m n a hle hm
    rw [bind_of_some hm, bind_of_some (hn ▸ hm), hn, (hf a).result m n b hle hb]

theorem Grows.yields_unique (hx : Grows x) (h : Yields x a) (h' : Yields x a') : a = a' := by
  obtain ⟨m, hm⟩ := h
  obtain ⟨n, hn⟩ := h'
  have hmax := hx.result m (max m n) a (Nat.le_max_left m n) hm
  have hmax' := hx.result n (max m n) a' (Nat.le_max_right m n) hn
  rw [← hmax, hmax'] at hm
  exact some.inj (hm.symm.trans hn)

theorem yields_const (x : Trace ε α) (a : α) : Yields (fun _ => x) a ↔ x.result = some a :=
  ⟨fun h => h.elim fun _ ha => ha, fun h => ⟨0, h⟩⟩

theorem yields_bind (hx : Grows x) (hf : ∀ a, Grows fun fuel => f fuel a) (b : β) :
    Yields (fun fuel => x fuel >>= f fuel) b ↔ ∃ a, Yields x a ∧
    Yields (fun fuel => f fuel a) b := by
  constructor
  · rintro ⟨fuel, h⟩
    rw [result_bind] at h
    obtain ⟨a, ha, hb⟩ := bind_eq_some_iff.1 h
    exact ⟨a, ⟨fuel, ha⟩, fuel, hb⟩
  · rintro ⟨a, ⟨m, hm⟩, n, hn⟩
    refine ⟨max m n, ?_⟩
    have ha := hx.result m (max m n) a (Nat.le_max_left m n) hm
    have hb := (hf a).result n (max m n) b (Nat.le_max_right m n) hn
    rw [result_bind, ha, hm, bind_some, hb, hn]

theorem always_const (x : Trace ε α) : Always P (fun _ => x) ↔ x.All P :=
  ⟨fun h => h 0, fun h _ => h⟩

theorem always_bind (hx : Grows x) (hf : ∀ a, Grows fun fuel => f fuel a) :
    Always P (fun fuel => x fuel >>= f fuel) ↔ Always P x ∧ ∀ a, Yields x a →
    Always P fun fuel => f fuel a := by
  constructor
  · intro h
    refine ⟨fun fuel => ((all_bind _ _).1 (h fuel)).1, ?_⟩
    rintro a ⟨m, hm⟩ n e he
    have ha := hx.result m (max m n) a (Nat.le_max_left m n) hm
    have hall := ((all_bind _ _).1 (h (max m n))).2 a (ha ▸ hm)
    exact hall e (((hf a).events n (max m n) (Nat.le_max_right m n)).subset he)
  · rintro ⟨hx, hf⟩ fuel
    exact (all_bind _ _).2 ⟨hx fuel, fun a ha => hf a ⟨fuel, ha⟩ fuel⟩

end Trace

end SwApi.Library
