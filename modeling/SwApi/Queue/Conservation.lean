import SwApi.Queue.Threads

/-! What comes out of a level that does not cover is what went in, as long as there still is room
when a poster writes. -/
namespace SwApi.Queue
open Library RingBuffer Os List Option

def Event.written (i : Nat) : Event esize → Option (Element esize)
  | .wrote j e => if j = i then some e else none
  | _ => none

def Event.taken (i : Nat) : Event esize → Option (Element esize)
  | .took j e => if j = i then some e else none
  | _ => none

def written (i : Nat) (history : List (Action esize × Event esize)) : List (Element esize) :=
  history.filterMap fun h => h.2.written i

def taken (i : Nat) (history : List (Action esize × Event esize)) : List (Element esize) :=
  history.filterMap fun h => h.2.taken i

theorem written_snoc : written i (history ++ [(a, event)]) =
    written i history ++ (event.written i).toList := by
  cases h : event.written i <;> simp [written, h]

theorem taken_snoc : taken i (history ++ [(a, event)]) =
    taken i history ++ (event.taken i).toList := by
  cases h : event.taken i <;> simp [taken, h]

def Conserved (history : List (Action esize × Event esize)) (s : System esize) : Prop :=
  ∀ i l, s.queue.levels[i]? = some l → l.fullCover = false →
    written i history = taken i history ++ l.contents

/-- Posts and reads only, and no write into a full ring that does not cover. -/
def WithRoom (s : System esize) (a : Action esize) : Prop :=
  a.isClear = false ∧ overruns s a = false
  deriving Decidable

section
variable {event : Event esize}

/-- What a step takes out at the front and what it leaves is what was there
with what it puts in at the end. -/
theorem Effect.balance (h : Effect covers fs event false fs') (hi : fs'[i]? = some f')
    (hcover : covers[i]? = some false) : ∃ f, fs[i]? = some f ∧
      f.items ++ (event.written i).toList = (event.taken i).toList ++ f'.items := by
  cases h with
  | quiet => exact ⟨f', hi, by simp [Event.written, Event.taken]⟩
  | @wrote j f e hj hroom =>
    by_cases hij : j = i
    · subst hij
      have hlen : f.items.length < f.capacity := by
        rcases hroom with htrue | hlen
        · cases htrue.symm.trans hcover
        · exact hlen
      have hset : (fs.set j (f.post e))[j]? = some (f.post e) := by
        rw [getElem?_set_self' , hj]
        rfl
      cases some.inj (hset.symm.trans hi)
      exact ⟨f, hj, by simp [Event.written, Event.taken, Fifo.post_items_of_room hlen]⟩
    · rw [getElem?_set_ne hij] at hi
      exact ⟨f', hi, by simp [Event.written, Event.taken, hij]⟩
  | @took j f e hj hne =>
    by_cases hij : j = i
    · subst hij
      have hset : (fs.set j f.rest)[j]? = some f.rest := by
        rw [getElem?_set_self', hj]
        rfl
      cases some.inj (hset.symm.trans hi)
      exact ⟨f, hj, by simpa [Event.written, Event.taken] using hne⟩
    · rw [getElem?_set_ne hij] at hi
      exact ⟨f', hi, by simp [Event.written, Event.taken, hij]⟩

theorem Effect.loss (h : Effect covers fs event true fs') :
    ∃ (i : Nat) (e : Element esize) (f : Fifo (Element esize)), event = .wrote i e ∧
      fs[i]? = some f ∧ fs'[i]? = some f.clear ∧ covers[i]? = some false := by
  cases h with
  | @overran j f e hj hcover _ =>
    refine ⟨j, e, f, rfl, hj, ?_, hcover⟩
    rw [getElem?_set_self', hj]
    rfl

end

def Balanced (covers : List Bool) (history : List (Action esize × Event esize))
    (s : System esize) : Prop :=
  (∀ t, (s.pc t).clearing = false) ∧ ∃ fs, Rings s.queue covers fs ∧
    ∀ (i : Nat) (f : Fifo (Element esize)), fs[i]? = some f → covers[i]? = some false →
      written i history = taken i history ++ f.items

theorem Balanced.conserved {s : System esize} (h : Balanced covers history s) (hw : 0 < esize) :
    Conserved history s := by
  obtain ⟨-, fs, hrings, hbalance⟩ := h
  intro i l hl hcover
  obtain ⟨f, hf, hlf⟩ := forall₂_getElem? hrings.represents hl
  rw [hlf.contents_eq hw]
  apply hbalance i f hf
  rw [← hrings.covers, getElem?_map, hl, map_some, hcover]

theorem Balanced.step {s s' : System esize} (h : Balanced covers history s) (hw : 0 < esize)
    (ha : WithRoom s a) (hs : step s a = some (event, s')) :
    Balanced covers (history ++ [(a, event)]) s' := by
  obtain ⟨hpc, fs, hrings, hbalance⟩ := h
  obtain ⟨⟨fs', hrings', heffect⟩, hpc'⟩ := step_effect hrings hw hpc ha.1 hs
  rw [ha.2] at heffect
  refine ⟨hpc', fs', hrings', ?_⟩
  intro i f' hf' hcover
  obtain ⟨f, hf, hitems⟩ := heffect.balance hf' hcover
  rw [written_snoc, taken_snoc, hbalance i f hf hcover, append_assoc, append_assoc, hitems]

theorem Balanced.not_conserved {s s' : System esize} (h : Balanced covers history s)
    (hw : 0 < esize) (ha : a.isClear = false) (hover : overruns s a = true)
    (hs : Queue.step s a = some (event, s')) : ¬Conserved (history ++ [(a, event)]) s' := by
  obtain ⟨hpc, fs, hrings, hbalance⟩ := h
  obtain ⟨⟨fs', hrings', heffect⟩, -⟩ := step_effect hrings hw hpc ha hs
  rw [hover] at heffect
  obtain ⟨i, e, f, rfl, hf, hf', hcover⟩ := heffect.loss
  obtain ⟨l, hl, hlf⟩ := forall₂_getElem? hrings'.represents.flip hf'
  intro hconserved
  have hcl : l.fullCover = false := by
    rw [← hrings'.covers, getElem?_map, hl] at hcover
    exact some.inj hcover
  have heq := hconserved i l hl hcl
  rw [written_snoc, taken_snoc, hbalance i f hf hcover, hlf.contents_eq hw] at heq
  simpa [Event.written, Event.taken] using congrArg List.length heq

/-- In every interleaving of posts and reads in which no element is written into
a full ring that does not cover, nothing is lost or duplicated; and the next
step keeps it so exactly if it is no such write either. -/
theorem run_conserved_iff (hsizes : SizesFit esize config)
    (hq : swQueueCreateWithPriority esize config = some q)
    (hrun : Run step WithRoom (.start q) history s) :
    Conserved history s ∧ ∀ a event s', a.isClear = false → step s a = some (event, s') →
        (Conserved (history ++ [(a, event)]) s' ↔ overruns s a = false) := by
  have hw := esize_pos_of_create hq
  have hbalanced : Balanced (config.map Prod.snd) history s := by
    apply Run.invariant (Balanced (config.map Prod.snd)) _ _ hrun
    · refine ⟨fun _ => rfl, fifosOf esize config, rings_of_create hsizes hq, ?_⟩
      intro i f hf _
      obtain ⟨c, -, rfl⟩ := mem_map.1 (mem_of_getElem? hf)
      rfl
    · intro history s a event s' h ha hs
      exact h.step hw ha hs
  refine ⟨hbalanced.conserved hw, ?_⟩
  intro a event s' ha hs
  cases hover : overruns s a with
  | false => simpa using (hbalanced.step hw ⟨ha, hover⟩ hs).conserved hw
  | true => simpa using hbalanced.not_conserved hw ha hover hs

/-- A poster and a reader on a ring of two, where the post waits for no one. -/
theorem run_conserved_iff_posted : ∃ (q : SwQueue 1) (history : List (Action 1 × Event 1))
    (s : System 1), swQueueCreateWithPriority 1 [(2, false)] = some q ∧
      exec step WithRoom (.start q) [.call 0 (.post 0 ⟨[7], rfl⟩), .advance 0, .advance 0,
        .call 1 (.read (-1)), .advance 0, .advance 0, .advance 1, .advance 1] = some (history, s) ∧
      Conserved history s := by
  refine exists_exec_from (fun _ _ _ => True) (by decide +kernel) ?_
  intro q history s hq he _
  exact (run_conserved_iff (by decide) hq (.of_exec he)).1

/-- Two posters find room for one element, and both write: the ring of two counts
as empty although two posts are complete and nothing was read. -/
theorem two_posts_are_lost : ∃ (q : SwQueue 1) (history : List (Action 1 × Event 1))
    (s : System 1), swQueueCreateWithPriority 1 [(2, false)] = some q ∧
      exec step (fun _ a => a.isClear = false) (.start q) [.call 0 (.post 0 ⟨[1], rfl⟩), .advance 0,
         .advance 0, .call 1 (.post 0 ⟨[2], rfl⟩), .advance 1, .advance 1,
         .advance 0, .advance 0, .advance 1, .advance 1] = some (history, s) ∧ s.pc 0 = .idle ∧
      s.pc 1 = .idle ∧ written 0 history = [⟨[1], rfl⟩, ⟨[2], rfl⟩] ∧ taken 0 history = [] ∧
      s.queue.levels.map Level.contents = [[]] ∧ ¬Conserved history s := by
  refine exists_exec_from (fun _ history s => decide (s.pc 0 = .idle ∧ s.pc 1 = .idle ∧
    written 0 history = [⟨[1], rfl⟩, ⟨[2], rfl⟩] ∧ taken 0 history = [] ∧
      s.queue.levels.map (fun l => (l.contents, l.fullCover)) = [([], false)]))
        (by decide +kernel) ?_
  intro q history s _ _ htest
  obtain ⟨hpc0, hpc1, hwritten, htaken, hlevels⟩ := of_decide_eq_true htest
  obtain ⟨l, hl, hpair⟩ := map_eq_singleton_iff.1 hlevels
  obtain ⟨hcontents, hcover⟩ := Prod.mk.inj hpair
  refine ⟨hpc0, hpc1, hwritten, htaken, by rw [hl]; simp [hcontents], ?_⟩
  intro hconserved
  have heq := hconserved 0 l (by rw [hl]; rfl) hcover
  rw [hwritten, htaken, hcontents] at heq
  cases heq

theorem Fifo.post_sublist (f : Fifo α) (e : α) : (f.post e).items <+ f.items ++ [e] := by
  rw [Fifo.post]
  split
  · exact .refl _
  · exact tail_sublist _

/-- Whatever a step discards, what it takes out at the front and what it leaves are in the order of
what was there with what it puts in at the end. -/
theorem Effect.ordered {event : Event esize} (h : Effect covers fs event lost fs')
    (hi : fs'[i]? = some f') :
    ∃ f, fs[i]? = some f ∧ (event.taken i).toList ++ f'.items <+ f.items ++
    (event.written i).toList := by
  cases h with
  | quiet => exact ⟨f', hi, by simp [Event.written, Event.taken]⟩
  | wrote hj | overran hj | took hj =>
    rw [getElem?_set_of_some hj] at hi
    grind [Event.written, Event.taken, Fifo.post_sublist, Fifo.clear_items]

def Ordered (covers : List Bool) (history : List (Action esize × Event esize)) (s : System esize) :
    Prop :=
  (∀ t, (s.pc t).clearing = false) ∧ ∃ fs, Rings s.queue covers fs ∧
    ∀ (i : Nat) (f : Fifo (Element esize)), fs[i]? = some f →
      taken i history ++ f.items <+ written i history

theorem Ordered.step {s s' : System esize} (h : Ordered covers history s) (hw : 0 < esize)
    (ha : a.isClear = false) (hs : step s a = some (event, s')) :
    Ordered covers (history ++ [(a, event)]) s' := by
  obtain ⟨hpc, fs, hrings, hordered⟩ := h
  obtain ⟨⟨fs', hrings', heffect⟩, hpc'⟩ := step_effect hrings hw hpc ha hs
  refine ⟨hpc', fs', hrings', ?_⟩
  intro i f' hf'
  obtain ⟨f, hf, hitems⟩ := heffect.ordered hf'
  have hbefore := (hordered i f hf).append_right (event.written i).toList
  rw [append_assoc] at hbefore
  rw [taken_snoc, written_snoc, append_assoc]
  exact (hitems.append_left _).trans hbefore

/-- In every interleaving of posts and reads the readers of a level, covering or not, get its
elements in the order in which they were written and none of them twice; what is still there comes
behind. -/
theorem run_ordered (hsizes : SizesFit esize config)
    (hq : swQueueCreateWithPriority esize config = some q)
    (hrun : Run step (fun _ a => a.isClear = false) (.start q) history s)
    (hl : s.queue.levels[i]? = some l) : taken i history ++ l.contents <+ written i history := by
  have hw := esize_pos_of_create hq
  obtain ⟨-, fs, hrings, hordered⟩ : Ordered (config.map Prod.snd) history s := by
    apply Run.invariant (Ordered (config.map Prod.snd)) _ (fun _ _ _ _ _ h ha hs => h.step hw ha hs)
      hrun
    refine ⟨fun _ => rfl, fifosOf esize config, rings_of_create hsizes hq, ?_⟩
    intro i f hf
    obtain ⟨c, -, rfl⟩ := mem_map.1 (mem_of_getElem? hf)
    exact .slnil
  obtain ⟨f, hf, hlf⟩ := forall₂_getElem? hrings.represents hl
  rw [hlf.contents_eq hw]
  exact hordered i f hf

/-- The second post to a covering ring for one element takes the place of the first, which nobody
gets. -/
theorem run_ordered_covered : ∃ (q : SwQueue 1) (history : List (Action 1 × Event 1))
    (s : System 1),
    swQueueCreateWithPriority 1 [(2, true)] = some q ∧
    exec step (fun _ a => a.isClear = false) (.start q)
      [.call 0 (.post 0 ⟨[1], rfl⟩), .advance 0, .advance 0, .advance 0,
      .call 1 (.post 0 ⟨[2], rfl⟩), .advance 1,
       .advance 1, .advance 1, .advance 0, .call 2 (.read 0), .advance 2, .advance 2] =
       some (history, s) ∧
      taken 0 history = [⟨[2], rfl⟩] ∧ taken 0 history <+ written 0 history := by
  refine exists_exec_from (fun _ history s => taken 0 history = [⟨[2], rfl⟩] ∧
    s.queue.levels[0]?.isSome) (by decide +kernel) ?_
  rintro q history s hq he ⟨htaken, hlevel⟩
  obtain ⟨l, hl⟩ := isSome_iff_exists.1 hlevel
  exact ⟨htaken, (sublist_append_left _ _).trans (run_ordered (by decide) hq (.of_exec he) hl)⟩

end SwApi.Queue
