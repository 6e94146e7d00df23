import SwApi.HostLookup.Exclusion

/-! Only what the worker of a call has got reaches its caller. -/
namespace SwApi.HostLookup
open Library

def Request.Known (q : Request) (v : Nat) : Prop := v = 0 ∨ q.resolved = some v

/-- Only addresses that the worker has got are in the record of a call, in its variable and in its
result. -/
structure Answer (q : Request) : Prop where
  ipaddr : q.Known q.ipaddr
  ret : ∀ v, q.ret = some v → q.Known v
  info : q.worker ≠ .idle → q.Known q.info.ipaddr
  pending : q.worker = .idle ∨ q.worker = .resolve → q.resolved = none
  found : ∀ addr, q.worker = .store addr → q.resolved = addr

theorem Phase.worker_ne_idle (h : Phase es r q) (hpc : q.pc side = .sec sec) :
    q.worker ≠ .idle := by
  obtain ⟨hother, -⟩ := h.of_sec hpc
  cases side <;> grind [Joint, Side.other, Request.pc]

theorem Answer.inSection (h : Answer q) (hpc : q.pc side = .sec sec) (hworker : q.worker ≠ .idle)
    (hstep : q.inSection r side m ok sec = some moved) : Answer moved.request := by
  obtain ⟨hipaddr, hret, hinfo, hpending, hfound⟩ := h
  unfold Request.inSection at hstep
  -- The caller reads the record in the body and returns at the end; nothing else changes.
  cases side <;> simp only [Request.goto, Request.body, Request.finish, Request.pc] at * <;>
    constructor <;> grind [Request.Known]

theorem Answer.goto (h : Answer q) (hworker : side = .worker → q.worker ≠ .idle ∧
    ∃ sec, pc = .sec sec) : Answer (q.goto side pc) := by
  cases side with
  | caller => exact ⟨h.ipaddr, h.ret, h.info, h.pending, h.found⟩
  | worker =>
    obtain ⟨hidle, sec, rfl⟩ := hworker rfl
    exact ⟨h.ipaddr, h.ret, fun _ => h.info hidle, by simp [Request.goto], by simp [Request.goto]⟩

theorem Answer.alone (h : Answer q) (hw : q.worker = .idle) (hc : Alone es r q.info q.caller)
    {addr : Option Nat}
    (hstep : q.proceed r .caller m ok addr = some moved) : Answer moved.request := by
  obtain ⟨hipaddr, hret, hinfo, hpending, hfound⟩ := h
  simp only [Request.proceed, Request.pc, Request.goto] at hstep
  cases hpc : q.caller <;> rw [hpc] at hstep hc <;> first | exact hc.elim | (constructor <;> grind
    [Request.Known, Alone])

theorem Answer.proceed (h : Answer q) (hphase : Phase es r q) {addr : Option Nat}
    (hstep : q.proceed r side m ok addr = some moved) : Answer moved.request := by
  have hgoes : q.pc side ≠ .idle ∧ q.pc side ≠ .done := by
    constructor <;> intro hpc <;> simp [Request.proceed, hpc] at hstep
  rcases hphase.cases_side hgoes.1 hgoes.2 with ⟨rfl, hw, hc⟩ | ⟨hme, -, -⟩
  · exact h.alone hw hc hstep
  simp only [Request.proceed] at hstep
  generalize hpc : q.pc side = pc at hme hstep
  cases pc with
  | sec sec =>
    exact h.inSection hpc (hphase.worker_ne_idle hpc) hstep
  | resume | wait =>
    cases hstep
    exact h.goto fun hside => by simp [hside, Joint] at hme
  | resolve =>
    cases side with
    | caller => exact hme.elim
    | worker =>
      cases hstep
      obtain ⟨hipaddr, hret, hinfo, hpending, -⟩ := h
      constructor <;> grind [Request.Known, Request.goto, Request.pc]
  | store found =>
    cases side with
    | caller => exact hme.elim
    | worker =>
      have hidle : q.worker ≠ .idle := hgoes.1
      cases found with
      | none =>
        cases hstep
        have hnext : Answer (q.goto .worker (.sec .test)) := h.goto fun _ => ⟨hidle, _, rfl⟩
        exact hnext
      | some a =>
        cases hstep
        have hstored : Answer { q with info := { q.info with ipaddr := a } } :=
          ⟨h.ipaddr, h.ret, fun _ => .inr (h.found _ hpc), h.pending, h.found⟩
        have hnext : Answer ({ q with info := { q.info with ipaddr := a } }.goto .worker
          (.sec .test)) :=
          hstored.goto fun _ => ⟨hidle, _, rfl⟩
        exact hnext
  | _ =>
    cases side <;> first | exact hme.elim | exact absurd hpc hgoes.2

end SwApi.HostLookup
