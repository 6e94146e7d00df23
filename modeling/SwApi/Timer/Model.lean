import Mathlib.Algebra.Order.Ring.Int
import SwApi.Library.CString
import SwApi.Os.Signal

/-! The timers of `swtimer.c`. The linked list of the nodes is the list of the nodes with
their addresses, in the order of the links; NULL is the address 0. A function that reads
the tick takes what it reads as an argument.

The mutex is held around the call of a handler, so a handler that calls back into the
timers does not return; any other one leaves the timers alone. A call of a handler is
therefore no more than an answer. -/
namespace SwApi.Timer
open Library Os Option

/-- `sw_thrd_get_tick`, from the value of `times(NULL)`, which counts 10 ms; a count that the C
library takes for an error is taken back from `errno`. -/
def swThrdGetTick (now timeorigin : UInt32) : UInt32 := (now - timeorigin) * 10

/-- The tick at `ms` milliseconds, counted from the 10 ms in which it was read first. -/
def tick (ms : Nat) : UInt32 := swThrdGetTick (UInt32.ofNat (ms / 10)) 0

/-- What the tick would be at `ms` milliseconds if it did not wrap. -/
def clock (ms : Nat) : Nat := ms / 10 * 10

/-- The tick when it has counted `n` milliseconds. -/
def counter (n : Nat) : UInt32 := UInt32.ofNat n

theorem counter_add (a b : Nat) : counter (a + b) = counter a + counter b := UInt32.ofNat_add a b

theorem counter_sub (h : b ≤ a) : counter (a - b) = counter a - counter b := UInt32.ofNat_sub h

theorem toNat_counter (n : Nat) : (counter n).toNat = n % 2^32 := UInt32.toNat_ofNat'

/-- The wrap of `times` does not show. -/
theorem swThrdGetTick_eq (origin count : Nat) :
    swThrdGetTick (UInt32.ofNat (origin + count)) (UInt32.ofNat origin) = counter (count * 10) := by
  rw [swThrdGetTick, counter, UInt32.ofNat_add, UInt32.ofNat_mul]
  grind

theorem tick_eq (ms : Nat) : tick ms = counter (clock ms) := by
  have h := swThrdGetTick_eq 0 (ms / 10)
  rwa [Nat.zero_add] at h

theorem clock_mono (h : now ≤ later) : clock now ≤ clock later := by
  unfold clock
  omega

inductive TimerStatus where
  | disable
  | enable
deriving DecidableEq

def TimerStatus.ofInt? (status : Int) : Option TimerStatus :=
  if status = 0 then some .disable else if status = 1 then some .enable else none

structure Handling where
  handler : Nat
  wparam : UInt32
  lparam : UInt32
deriving DecidableEq

/-- `timer_nod_t` without its links. -/
structure TimerNode where
  name : CString
  interval : UInt32
  times : Int
  originalTimes : Int
  startTime : UInt32
  triggerTime : UInt32
  storeTime : UInt32
  handling : Handling
  status : TimerStatus

def zeroBlock : TimerNode := ⟨.empty, 0, 0, 0, 0, 0, 0, ⟨0, 0, 0⟩, .disable⟩

abbrev Timers := List (Nat × TimerNode)

structure TimerDes where
  timers : Timers
  signal : Signal
  timeout : UInt32

def swTimerInit : TimerDes := ⟨[], swSignalCreate 0 1, -1⟩

def TimerDes.give (des : TimerDes) : TimerDes := { des with signal := swSignalGive des.signal }

def upgradeTimeout (des : TimerDes) (node : TimerNode) (now : UInt32) : TimerDes :=
  if node.triggerTime - now < des.timeout then { des with timeout := node.triggerTime - now }
  else des

def addTimerSection (des : TimerDes) (address : Nat) (node : TimerNode) (now : UInt32) : TimerDes :=
  let des := upgradeTimeout des node now
  { des with timers := des.timers ++ [(address, node)] }

def addTimer (des : TimerDes) (address : Nat) (node : TimerNode) (now : UInt32) : TimerDes :=
  (addTimerSection des address node now).give

/-- The loop of the calls that take a handle; `none` when the handle is not in the list. -/
def onTimer (handle : Nat) (f : TimerNode → TimerNode) : Timers → Option Timers
  | [] => none
  | (address, node) :: rest =>
      if address = handle then some ((address, f node) :: rest)
      else (onTimer handle f rest).map ((address, node) :: ·)

def TimerNode.expired (node : TimerNode) (now : UInt32) : Bool := node.triggerTime ≤ now

def onTick (node : TimerNode) (now : UInt32) : Option Handling × TimerNode :=
  if node.status ≠ .enable then (none, node)
  else if node.times = 0 then (none, node)
  else if 0 < node.times then
    if node.expired now then
      let node' := { node with times := node.times - 1 }
      (some node.handling,
        if 0 < node'.times then { node' with triggerTime := node.triggerTime + node.interval }
        else node')
    else (none, node)
  else if node.times = -1 then
    if node.expired now then
      (some node.handling, { node with triggerTime := node.triggerTime + node.interval })
    else (none, node)
  else (none, node)

/-- The section of `thread_pro`: `on_tick` for every node, each with the tick it reads,
then the nodes whose `times` is 0 are deleted. -/
def threadSection (des : TimerDes) (nows : List UInt32) : List (Option Handling) × TimerDes :=
  let visits := List.zipWith (fun now t => (t.1, onTick t.2 now)) nows des.timers
  (visits.map fun v => v.2.1,
    { des with timers := (visits.map fun v => (v.1, v.2.2)).filter fun t => t.2.times ≠ 0 })

def minTimeout (min : UInt32) (node : TimerNode) (now : UInt32) : UInt32 :=
  if node.status = .enable ∧ node.triggerTime - now < min then node.triggerTime - now else min

/-- The assignments of `sw_timer_create`: the fields that are not assigned stay what the
block from the pool holds. -/
def initNode (block : TimerNode) (name : CString) (interval : Int) (times : Int) (handler : Nat)
    (start : UInt32) : TimerNode :=
  { block with
    name := name.take 63, status := .enable, interval := UInt32.ofNat interval.toNat, times
    originalTimes := times, handling := { block.handling with handler }
    startTime := start, triggerTime := start + UInt32.ofNat interval.toNat }

/-- The checks of `sw_timer_create` and its allocation, which gives `address` (NULL when
there is no memory) with the contents `block`. -/
def createNode (address : Nat) (block : TimerNode) (name : Option CString) (interval times : Int)
    (handler : Nat) (start : UInt32) : Option TimerNode := do
  let name ← name
  if interval < 0 ∨ times < -1 ∨ handler = 0 ∨ address = 0 then none
  else some (initNode block name interval times handler start)

/-- `sw_timer_create`: `start` is the tick it reads itself, `now` the one `add_timer` reads. The
arguments `wparam` and `lparam` are not used. -/
def swTimerCreate (des : TimerDes) (address : Nat) (block : TimerNode) (name : Option CString)
    (interval times : Int) (handler : Nat) (_wparam _lparam : UInt32) (start now : UInt32) :
    Nat × TimerDes :=
  match createNode address block name interval times handler start with
  | none => (0, des)
  | some node => (address, addTimer des address node now)

def swTimerDestroy (des : TimerDes) (handle : Nat) : TimerDes :=
  if handle = 0 then des
  else { des with timers := des.timers.eraseP fun t => t.1 == handle }

def TimerDes.answer (des : TimerDes) : Option Timers → Int × TimerDes
  | none => (-1, des)
  | some timers => (0, { des with timers })

def TimerNode.reset (node : TimerNode) (now : UInt32) : TimerNode :=
  { node with
    times := node.originalTimes, startTime := now, triggerTime := now + node.interval
    status := .enable }

def swTimerReset (des : TimerDes) (handle : Nat) (now : UInt32) : Int × TimerDes :=
  if handle = 0 then (-1, des) else des.answer (onTimer handle (·.reset now) des.timers)

def TimerNode.setInterval (node : TimerNode) (interval : UInt32) (times : Int) (now : UInt32) :
    TimerNode :=
  { node with
    times, originalTimes := times, startTime := now, interval, triggerTime := now + interval
    status := .enable }

def swTimerSetInterval (des : TimerDes) (handle : Nat) (interval times : Int) (now : UInt32) :
    Int × TimerDes :=
  if handle = 0 ∨ interval < 0 ∨ times < -1 then (-1, des)
  else des.answer (onTimer handle (·.setInterval (UInt32.ofNat interval.toNat) times now)
    des.timers)

def swTimerSetOntimehandler (des : TimerDes) (handle handler : Nat) (wparam lparam : UInt32) :
    Int × TimerDes :=
  if handle = 0 ∨ handler = 0 then (-1, des)
  else des.answer
    (onTimer handle (fun node => { node with handling := ⟨handler, wparam, lparam⟩ }) des.timers)

def TimerNode.setStatus (node : TimerNode) (status : TimerStatus) (now : UInt32) : TimerNode :=
  match node.status, status with
  | .enable, .disable => { node with storeTime := node.triggerTime - now, status }
  | .disable, .enable => { node with triggerTime := node.storeTime + now, status }
  | _, _ => { node with status }

/-- The part of `sw_timer_set_status` under the mutex, with the answer whether the signal
is to be given behind it; `none` is -1. -/
def setStatusSection (des : TimerDes) (handle : Nat) (status : Int) (now : UInt32) :
    Option (Bool × TimerDes) := do
  let status ← TimerStatus.ofInt? status
  if handle = 0 then none
  else
    let node ← des.timers.lookup handle
    let timers ← onTimer handle (·.setStatus status now) des.timers
    some (node.status == .disable && status == .enable, { des with timers })

def swTimerSetStatus (des : TimerDes) (handle : Nat) (status : Int) (now : UInt32) :
    Int × TimerDes :=
  match setStatusSection des handle status now with
  | none => (-1, des)
  | some (gives, des) => (0, if gives then des.give else des)

theorem onTimer_eq_some (h : onTimer handle f timers = some timers') : ∃ before n after,
      timers = before ++ (handle, n) :: after ∧ timers' = before ++ (handle, f n) :: after := by
  induction timers generalizing timers' with
  | nil => cases h
  | cons t rest ih =>
    obtain ⟨address, n⟩ := t
    rw [onTimer] at h
    split at h
    · rename_i heq
      subst heq
      cases h
      exact ⟨[], n, rest, rfl, rfl⟩
    · obtain ⟨rest', hrest, rfl⟩ := map_eq_some_iff.1 h
      obtain ⟨before, m, after, rfl, rfl⟩ := ih hrest
      exact ⟨(address, n) :: before, m, after, rfl, rfl⟩

theorem setStatus_same {n : TimerNode} (h : n.status = status) (now : UInt32) :
    n.setStatus status now = n := by
  cases n
  cases status with
  | enable | disable =>
    cases h
    rfl

theorem setStatus_disable {n : TimerNode} (h : n.status = .enable) :
    n.setStatus .disable now = { n with storeTime := n.triggerTime - now, status := .disable } := by
  simp [TimerNode.setStatus, h]

theorem setStatus_enable {n : TimerNode} (h : n.status = .disable) :
    n.setStatus .enable now = { n with triggerTime := n.storeTime + now, status := .enable } := by
  simp [TimerNode.setStatus, h]

theorem setStatusSection_found (h : setStatusSection des handle code now = some (gives, des')) :
    ∃ status, TimerStatus.ofInt? code = some status ∧
      onTimer handle (·.setStatus status now) des.timers = some des'.timers := by
  obtain ⟨status, hstatus, h⟩ := bind_eq_some_iff.1 h
  split at h
  · cases h
  · obtain ⟨node, -, h⟩ := bind_eq_some_iff.1 h
    obtain ⟨timers, htimers, h⟩ := bind_eq_some_iff.1 h
    cases h
    exact ⟨status, hstatus, htimers⟩

theorem onTick_of_some (h : (onTick n now).1 = some handling) : n.status = .enable ∧ n.times ≠ 0 ∧
      n.triggerTime ≤ now ∧ handling = n.handling ∧
      ((onTick n now).2.times ≠ 0 → ∃ times, -1 ≤ times ∧
          (onTick n now).2 = { n with times, triggerTime := n.triggerTime + n.interval }) := by
  by_cases hstatus : n.status = .enable
  case neg => simp [onTick, hstatus] at h
  by_cases hzero : n.times = 0
  · simp [onTick, hzero] at h
  by_cases hexpired : n.expired now = true
  case neg => simp [onTick, hexpired] at h
  refine ⟨hstatus, hzero, of_decide_eq_true hexpired, ?_⟩
  by_cases hpos : 0 < n.times
  · rw [onTick, if_neg (not_not.2 hstatus), if_neg hzero, if_pos hpos, if_pos hexpired] at h ⊢
    refine ⟨(some.inj h).symm, ?_⟩
    dsimp only
    split
    · exact fun _ => ⟨n.times - 1, by omega, rfl⟩
    · intro hleft
      dsimp only at hleft
      omega
  · by_cases hever : n.times = -1
    case neg => simp [onTick, hzero, hpos, hever] at h
    rw [onTick, if_neg (not_not.2 hstatus), if_neg hzero, if_neg hpos, if_pos hever,
      if_pos hexpired] at h ⊢
    exact ⟨(some.inj h).symm, fun _ => ⟨n.times, by omega, rfl⟩⟩

theorem onTick_fires (hstatus : n.status = .enable)
    (htimes : n.times ≠ 0) (hrange : -1 ≤ n.times) (hnow : n.triggerTime ≤ now) :
    (onTick n now).1 = some n.handling := by
  unfold onTick TimerNode.expired
  split_ifs <;> simp_all
  omega

theorem onTick_of_none (h : (onTick n now).1 = none) : (onTick n now).2 = n := by
  unfold onTick at h ⊢
  split_ifs at h ⊢ <;> simp_all

end SwApi.Timer
