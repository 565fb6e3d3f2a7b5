/-
  Calls on an endpoint from the coroutines that its own calls resume.

  A thread runs user code until it calls an operation of the endpoint. The operation may resume a
  parked coroutine, which is user code again, on the same thread and inside the call. A thread has a
  stack of the calls it is in. `send_nowait` resumes after its critical section, `close` inside
  it, going through the list of the parked. To lock the mutex twice is undefined; `undefined`
  remembers that a thread did.

  No coroutine is resumed under the lock exactly as long as no `close` finds a receiver parked
  (`no_resume_under_lock_iff`).
-/
import NeuroVerse.Ipc.Endpoint

namespace NeuroVerse.Ipc

open Lib

namespace Nested

/-- A call that is not over. -/
inductive Frame (ρ : Type*) where
  /-- `send_nowait`, with the coroutine it is going to resume. -/
  | handing (w : ρ)
  /-- `send_nowait`, while that coroutine runs. -/
  | handed
  /-- `close`, at a place of the list it goes through. -/
  | waking (k : Nat)
  /-- `close`, while the coroutine at that place runs. -/
  | woke (k : Nat)

inductive Op (ρ μ : Type*) where
  | sendNowait (m : μ)
  | tryRecv
  | awaitReady (r : ρ)
  | awaitSuspend (r : ρ)
  | close

inductive Action (τ ρ μ : Type*) where
  | call (t : τ) (op : Op ρ μ)
  /-- The call on top goes on. -/
  | go (t : τ)
  /-- The coroutine on top is suspended, or over. -/
  | ret (t : τ)

end Nested

open Nested in
/-- An endpoint, the thread that holds its mutex, and the calls each thread is in. -/
structure Nested (τ ρ μ : Type*) where
  ep : Endpoint ρ μ := {}
  owner : Option τ := none
  stack : τ → List (Frame ρ) := fun _ => []
  undefined : Bool := false

namespace Nested

variable {τ ρ μ : Type*}

/-! ## Frames and the mutex -/

/-- The call goes through the list of the parked. -/
def Frame.Iterates : Frame ρ → Prop
  | .waking _ | .woke _ => True
  | .handing _ | .handed => False

def Quiet (frames : List (Frame ρ)) : Prop := ∀ f ∈ frames, ¬ f.Iterates

theorem Quiet.cons {f : Frame ρ} {frames : List (Frame ρ)} (hf : ¬ f.Iterates)
    (h : Quiet frames) : Quiet (f :: frames) :=
  List.forall_mem_cons.mpr ⟨hf, h⟩

def inUserCode (s : Nested τ ρ μ) (t : τ) : Bool :=
  match s.stack t with
  | [] | .handed :: _ | .woke _ :: _ => true
  | .handing _ :: _ | .waking _ :: _ => false

/-- Who holds the mutex: no one, and then no call goes through the list; or one thread, which is in
    a `close` that found nobody parked. -/
inductive Held (s : Nested τ ρ μ) : Prop
  | free (ho : s.owner = none) (hq : ∀ t, Quiet (s.stack t))
  | closing (t : τ) (k : Nat) (rest : List (Frame ρ)) (ho : s.owner = some t)
      (hs : s.stack t = .waking k :: rest) (hr : Quiet rest) (hw : s.ep.waiters = [])
      (hq : ∀ t', t' ≠ t → Quiet (s.stack t'))

theorem Held.of_waking {s : Nested τ ρ μ} (h : s.Held) {t : τ} {k : Nat} {rest : List (Frame ρ)}
    (hs : s.stack t = .waking k :: rest) : s.owner = some t ∧ Quiet rest ∧ s.ep.waiters = [] ∧
      ∀ t', t' ≠ t → Quiet (s.stack t') := by
  cases h with
  | free ho hq => exact absurd trivial (hq t (.waking k) (hs ▸ List.mem_cons_self))
  | closing u j rest' ho hs' hr hw hq =>
    by_cases hu : t = u
    · subst hu
      cases hs.symm.trans hs'
      exact ⟨ho, hr, hw, hq⟩
    · exact absurd trivial (hq t hu (.waking k) (hs ▸ List.mem_cons_self))

theorem Held.not_woke {s : Nested τ ρ μ} (h : s.Held) {t : τ} {k : Nat} {rest : List (Frame ρ)} :
    s.stack t ≠ .woke k :: rest := by
  intro hs
  cases h with
  | free ho hq => exact hq t (.woke k) (hs ▸ List.mem_cons_self) trivial
  | closing u j rest' ho hs' hr hw hq =>
    by_cases hu : t = u
    · subst hu
      cases hs.symm.trans hs'
    · exact hq t hu (.woke k) (hs ▸ List.mem_cons_self) trivial

theorem Held.quiet {s : Nested τ ρ μ} (h : s.Held) (ho : s.owner = none) (t : τ) :
    Quiet (s.stack t) := by
  cases h with
  | free ho' hq => exact hq t
  | closing u k rest ho' => cases ho.symm.trans ho'

/-- The thread that holds the mutex does not run user code. -/
theorem Held.not_inUserCode {s : Nested τ ρ μ} (h : s.Held) {t : τ} (ho : s.owner = some t) :
    s.inUserCode t = false := by
  cases h with
  | free ho' => cases ho.symm.trans ho'
  | closing u k rest ho' hs =>
    cases ho.symm.trans ho'
    rw [inUserCode, hs]

/-- Every parked awaiter has its coroutine. -/
def Continues (e : Endpoint ρ μ) : Prop := ∀ w ∈ e.waiters, (e.awaiter w).continuation.isSome = true

theorem Continues.mono {e e' : Endpoint ρ μ} (h : Continues e)
    (hw : ∀ w ∈ e'.waiters, w ∈ e.waiters)
    (hc : ∀ w, (e'.awaiter w).continuation = (e.awaiter w).continuation) : Continues e' := by
  intro w hmem
  rw [hc w]
  exact h w (hw w hmem)

structure Inv (s : Nested τ ρ μ) : Prop where
  continues : Continues s.ep
  defined : s.undefined = false
  held : s.Held

/-- The next thing that the thread does is to resume a coroutine. -/
def Resuming (s : Nested τ ρ μ) (t : τ) : Prop :=
  match s.stack t with
  | .handing _ :: _ => True
  | .waking k :: _ => ∃ w, s.ep.waiters[k]? = some w ∧ (s.ep.awaiter w).continuation.isSome
  | _ => False

/-- No thread is about to resume a coroutine under the lock, and none has locked the mutex it
    holds. -/
structure Unlocked (s : Nested τ ρ μ) : Prop where
  resuming : ∀ t, s.Resuming t → s.owner ≠ some t
  defined : s.undefined = false

theorem Inv.unlocked {s : Nested τ ρ μ} (hi : s.Inv) : s.Unlocked := by
  refine ⟨fun t hr ho => ?_, hi.defined⟩
  cases hi.held with
  | free ho' => cases ho.symm.trans ho'
  | closing u k rest ho' hs _ hw =>
    cases ho.symm.trans ho'
    rw [Resuming, hs] at hr
    obtain ⟨w, hk, -⟩ := hr
    rw [hw, List.getElem?_nil] at hk
    cases hk

variable [DecidableEq τ]

def setStack (s : Nested τ ρ μ) (t : τ) (frames : List (Frame ρ)) : Nested τ ρ μ :=
  { s with stack := Function.update s.stack t frames }

@[simp] theorem setStack_self (s : Nested τ ρ μ) (t : τ) (frames : List (Frame ρ)) :
    (s.setStack t frames).stack t = frames := by
  simp [setStack]

theorem setStack_of_ne (s : Nested τ ρ μ) {t t' : τ} (h : t' ≠ t) (frames : List (Frame ρ)) :
    (s.setStack t frames).stack t' = s.stack t' := by
  simp [setStack, h]

theorem setStack_quiet {s : Nested τ ρ μ} {t : τ} {frames : List (Frame ρ)} (hf : Quiet frames)
    {t' : τ} (ht : t' ≠ t → Quiet (s.stack t')) : Quiet ((s.setStack t frames).stack t') := by
  by_cases h : t' = t
  · subst h
    rw [setStack_self]
    exact hf
  · rw [setStack_of_ne s h]
    exact ht h

/-- A call of the endpoint by a thread that does not hold the lock stays out of the way of one that
    does. -/
theorem Held.of_setStack {s : Nested τ ρ μ} (h : s.Held) {t : τ} {f : Frame ρ}
    {frames old : List (Frame ρ)} (ht : s.stack t = f :: old) (hf : ¬ f.Iterates)
    (hframes : Quiet old → Quiet frames) {e : Endpoint ρ μ} (he : e.waiters = s.ep.waiters) :
    Held { s.setStack t frames with ep := e } := by
  cases h with
  | free ho hq =>
    have hold : Quiet old := (List.forall_mem_cons.mp (ht ▸ hq t)).2
    exact .free ho fun t' => setStack_quiet (hframes hold) fun _ => hq t'
  | closing u k rest ho hs hr hw hq =>
    have hne : t ≠ u := by
      rintro rfl
      rw [hs] at ht
      cases ht
      exact hf trivial
    have hold : Quiet old := (List.forall_mem_cons.mp (ht ▸ hq t hne)).2
    refine .closing u k rest ho ?_ hr (he.trans hw) fun t' ht' =>
      setStack_quiet (hframes hold) fun _ => hq t' ht'
    exact (setStack_of_ne s (Ne.symm hne) frames).trans hs

def ret (s : Nested τ ρ μ) (t : τ) : Nested τ ρ μ :=
  match s.stack t with
  | .handed :: rest => s.setStack t rest
  | .woke k :: rest => s.setStack t (.waking (k + 1) :: rest)
  | _ => s

theorem ret_inv {s : Nested τ ρ μ} (hi : s.Inv) (t : τ) : (s.ret t).Inv := by
  unfold ret
  split
  · next rest hs =>
    exact ⟨hi.continues, hi.defined, hi.held.of_setStack hs id id (e := s.ep) rfl⟩
  · next k rest hs => exact absurd hs hi.held.not_woke
  · exact hi

theorem ret_waiters (s : Nested τ ρ μ) (t : τ) : (s.ret t).ep.waiters = s.ep.waiters := by
  unfold ret
  split <;> rfl

/-- The calls that thread `t` is in, but for one that the action goes on with. -/
def others (s : Nested τ ρ μ) (a : Action τ ρ μ) (t : τ) : List (Frame ρ) :=
  match a with
  | .go t' => if t = t' then (s.stack t).tail else s.stack t
  | .call _ _ | .ret _ => s.stack t

theorem mem_stack_of_mem_others {s : Nested τ ρ μ} {a : Action τ ρ μ} {t : τ} {f : Frame ρ}
    (h : f ∈ s.others a t) : f ∈ s.stack t := by
  cases a with
  | call u op => exact h
  | go u =>
    rw [others] at h
    split at h
    · exact List.mem_of_mem_tail h
    · exact h
  | ret u => exact h

variable [DecidableEq ρ]

theorem setAwaiter_continuation (e : Endpoint ρ μ) (r : ρ) {x : Endpoint.RecvAwaiter ρ μ}
    (hx : x.continuation = (e.awaiter r).continuation) (w : ρ) :
    ((e.setAwaiter r x).awaiter w).continuation = (e.awaiter w).continuation := by
  show (Function.update e.awaiter r x w).continuation = _
  by_cases hw : w = r
  · subst hw
    rw [Function.update_self, hx]
  · rw [Function.update_of_ne hw]

/-- The coroutine of a parked awaiter runs on. -/
def runsOn (e : Endpoint ρ μ) (w : ρ) : Endpoint ρ μ :=
  { e.setAwaiter w { e.awaiter w with
      phase := .ready, resumed := (e.awaiter w).resumed + 1 } with
    resumes := e.resumes.erase w }

theorem runsOn_continues {e : Endpoint ρ μ} (h : Continues e) (w : ρ) : Continues (runsOn e w) :=
  h.mono (fun _ hmem => hmem) (setAwaiter_continuation e w rfl)

def go (s : Nested τ ρ μ) (t : τ) : Nested τ ρ μ :=
  match s.stack t with
  | .handing w :: rest => { s.setStack t (.handed :: rest) with ep := runsOn s.ep w }
  | .waking k :: rest =>
    match s.ep.waiters[k]? with
    | none => { s.setStack t rest with ep := { s.ep with waiters := [] }, owner := none }
    | some w =>
      let e := s.ep.setAwaiter w { s.ep.awaiter w with result := none }
      if (s.ep.awaiter w).continuation.isSome then
        { s.setStack t (.woke k :: rest) with ep := runsOn e w }
      else { s.setStack t (.waking (k + 1) :: rest) with ep := e }
  | _ => s

theorem go_inv {s : Nested τ ρ μ} (hi : s.Inv) (t : τ) : (s.go t).Inv := by
  unfold go
  split
  · next w rest hs =>
    exact ⟨runsOn_continues hi.continues w, hi.defined,
      hi.held.of_setStack hs id (fun h => h.cons id) rfl⟩
  · next k rest hs =>
    obtain ⟨-, hr, hw, hq⟩ := hi.held.of_waking hs
    rw [hw, List.getElem?_nil]
    refine Inv.mk (fun w hmem => nomatch hmem) hi.defined (.free rfl fun t' => ?_)
    exact setStack_quiet hr (hq t')
  · exact hi

/-- Only a call that goes through the list changes it while it goes on. -/
theorem go_waiters {s : Nested τ ρ μ} {t : τ} (hq : Quiet (s.stack t)) :
    (s.go t).ep.waiters = s.ep.waiters := by
  unfold go
  split
  · rfl
  · next k rest hs => exact absurd trivial (hq (.waking k) (hs ▸ List.mem_cons_self))
  · rfl

/-! ## Calls -/

variable [Inhabited μ]

/-- The critical section of an operation; that of `close` is only begun. -/
def enter (s : Nested τ ρ μ) (t : τ) : Op ρ μ → Nested τ ρ μ
  | .sendNowait m =>
    let s' := { s with ep := s.ep.step (.send m) }
    match s.ep.waiters with
    | [] => s'
    | w :: _ =>
      if (s.ep.awaiter w).continuation.isSome then s'.setStack t (.handing w :: s.stack t) else s'
  | .tryRecv => { s with ep := s.ep.step .poll }
  | .awaitReady r => { s with ep := s.ep.step (.ready r) }
  | .awaitSuspend r => { s with ep := s.ep.step (.suspend r) }
  | .close =>
    { s.setStack t (.waking 0 :: s.stack t) with
      ep := { s.ep with closed := true }, owner := some t }

/-- A call waits while another thread holds the mutex. -/
def step (s : Nested τ ρ μ) : Action τ ρ μ → Nested τ ρ μ
  | .call t op =>
    if s.inUserCode t then
      match s.owner with
      | none => s.enter t op
      | some t' => if t' = t then { s with undefined := true } else s
    else s
  | .go t => s.go t
  | .ret t => s.ret t

/-- The action leaves the list of the parked as it is if another call goes through it. -/
def Undisturbed (s : Nested τ ρ μ) (a : Action τ ρ μ) : Prop :=
  (∃ t, ∃ f ∈ s.others a t, f.Iterates) → (s.step a).ep.waiters = s.ep.waiters

/-- The action is not a `close` that gets the lock while a receiver is parked. -/
def NoneParked (s : Nested τ ρ μ) (a : Action τ ρ μ) : Prop :=
  ∀ t, a = .call t .close → s.inUserCode t = true → s.owner = none → s.ep.waiters = []

/-! ## The parked -/

theorem stepped_continues {e e' : Endpoint ρ μ} {a : Endpoint.Action ρ μ}
    (hs : Endpoint.Stepped e a e') (h : Continues e) : Continues e' := by
  cases hs with
  | idle => exact h
  | handed m w waiters hw =>
    refine h.mono (fun w' hmem => ?_) (setAwaiter_continuation e w rfl)
    rw [hw]
    exact List.mem_cons_of_mem w hmem
  | queued | polled => exact h
  | took | missed | refused | resumed | returned =>
    exact h.mono (fun _ hmem => hmem) (setAwaiter_continuation e _ rfl)
  | parked r hp hq hc =>
    intro w hmem
    by_cases hw : w = r
    · subst hw
      simp [Endpoint.setAwaiter]
    · have hold := (List.mem_append.mp hmem).resolve_right fun hr => hw (List.mem_singleton.mp hr)
      simp only [Endpoint.setAwaiter, Function.update_of_ne hw]
      exact h w hold
  | closing => exact fun w hmem => nomatch hmem

/-! ## The invariant -/

theorem enter_inv {s : Nested τ ρ μ} (hi : s.Inv) (ho : s.owner = none) (t : τ) {op : Op ρ μ}
    (hop : op = .close → s.ep.waiters = []) : (s.enter t op).Inv := by
  have hq := hi.held.quiet ho
  have hep : ∀ a : Endpoint.Action ρ μ, Inv { s with ep := s.ep.step a } := fun a =>
    ⟨stepped_continues (Endpoint.step_stepped s.ep a) hi.continues, hi.defined, .free ho hq⟩
  cases op with
  | sendNowait m =>
    simp only [enter]
    split
    · exact hep (.send m)
    · next w waiters hw =>
      split
      · refine ⟨(hep (.send m)).continues, hi.defined, .free ho fun t' => ?_⟩
        exact setStack_quiet (Quiet.cons id (hq t)) fun _ => hq t'
      · exact hep (.send m)
  | tryRecv => exact hep .poll
  | awaitReady r => exact hep (.ready r)
  | awaitSuspend r => exact hep (.suspend r)
  | close =>
    refine ⟨hi.continues.mono (fun _ hmem => hmem) (fun _ => rfl), hi.defined, ?_⟩
    refine .closing t 0 (s.stack t) rfl (setStack_self s t _) (hq t) (hop rfl) fun t' ht' => ?_
    exact (setStack_of_ne s ht' _).symm ▸ hq t'

theorem step_inv {s : Nested τ ρ μ} (hi : s.Inv) {a : Action τ ρ μ} (hok : s.NoneParked a) :
    (s.step a).Inv := by
  cases a with
  | call t op =>
    rw [step]
    split
    · next huser =>
      split
      · next ho => exact enter_inv hi ho t fun hop => hok t (hop ▸ rfl) huser ho
      · next u ho =>
        split
        · next hu =>
          rw [hi.held.not_inUserCode (hu ▸ ho)] at huser
          cases huser
        · exact hi
    · exact hi
  | go t => exact go_inv hi t
  | ret t => exact ret_inv hi t

/-! ## No resumption under the lock -/

theorem call_waiters {s : Nested τ ρ μ} {u : τ} (ho : s.owner = some u) (t : τ) (op : Op ρ μ) :
    (s.step (.call t op)).ep.waiters = s.ep.waiters := by
  rw [step, ho]
  split
  · dsimp only
    split <;> rfl
  · rfl

theorem Inv.undisturbed {s : Nested τ ρ μ} (hi : s.Inv) (a : Action τ ρ μ) : s.Undisturbed a := by
  rintro ⟨t, f, hf, hit⟩
  cases hi.held with
  | free ho hq => exact absurd hit (hq t f (mem_stack_of_mem_others hf))
  | closing u k rest ho hs hr hw hq =>
    have ht : t = u := by
      by_contra hne
      exact hq t hne f (mem_stack_of_mem_others hf) hit
    cases a with
    | call v op => exact call_waiters ho v op
    | go v =>
      have hv : v ≠ u := by
        rintro rfl
        rw [ht, others, if_pos rfl, hs] at hf
        exact hr f hf hit
      exact go_waiters (hq v hv)
    | ret v => exact ret_waiters s v

theorem close_not_unlocked {s : Nested τ ρ μ} (hi : s.Inv) {t : τ} (huser : s.inUserCode t = true)
    (ho : s.owner = none) (hw : s.ep.waiters ≠ []) : ¬ (s.step (.call t .close)).Unlocked := by
  have hstep : s.step (.call t .close) = s.enter t .close := by
    rw [step, if_pos huser, ho]
  obtain ⟨w, waiters, hcons⟩ := List.exists_cons_of_ne_nil hw
  have hcont := hi.continues w (hcons ▸ List.mem_cons_self)
  have hstack : (s.enter t .close).stack t = .waking 0 :: s.stack t := setStack_self s t _
  intro h
  refine h.resuming t ?_ (by rw [hstep]; rfl)
  rw [hstep, Resuming, hstack]
  refine ⟨w, ?_, hcont⟩
  show s.ep.waiters[0]? = some w
  rw [hcons, List.getElem?_cons_zero]

abbrev after (acts : List (Action τ ρ μ)) : Nested τ ρ μ := run step {} acts

theorem after_inv {acts : List (Action τ ρ μ)} (h : StepsMeet step NoneParked {} acts) :
    (after acts).Inv :=
  run_invariant_of_meet (I := Inv) ⟨fun _ hmem => absurd hmem List.not_mem_nil, rfl,
    .free rfl fun _ _ hf => absurd hf List.not_mem_nil⟩ (fun _ _ hi hok => step_inv hi hok) h

/-- All along a run no coroutine is resumed under the lock, no thread locks the mutex it holds and
    no list is changed while another call goes through it, exactly when no `close` of the run gets
    the lock while a receiver is parked. -/
theorem no_resume_under_lock_iff (acts : List (Action τ ρ μ)) :
    ((∀ pre, pre <+: acts → (after pre).Unlocked) ∧ StepsMeet step Undisturbed {} acts) ↔
      StepsMeet step NoneParked {} acts := by
  have hunlocked : (∀ pre, pre <+: acts → (after pre).Unlocked) ↔
      StepsMeet step NoneParked {} acts := by
    refine prefixes_iff (Inv.unlocked (after_inv (stepsMeet_nil _ _ _))) fun pre a _ _ hmeet => ?_
    have hi := after_inv hmeet
    rw [after, run_snoc]
    constructor
    · rintro h t rfl huser ho
      by_contra hw
      exact close_not_unlocked hi huser ho hw h
    · exact fun hok => (step_inv hi hok).unlocked
  constructor
  · exact fun h => hunlocked.mp h.1
  · intro h
    refine ⟨hunlocked.mpr h, fun pre a hp => ?_⟩
    exact (after_inv (h.restrict ((List.prefix_append pre [a]).trans hp))).undisturbed a

/-- A receiver is parked, the endpoint is closed, and the receiver's coroutine makes a call. -/
def closedWhileParked : List (Action Nat Nat Nat) :=
  [.call 0 (.awaitReady 1), .call 0 (.awaitSuspend 1), .call 0 .close, .go 0, .call 0 .tryRecv]

theorem close_resumes_under_lock :
    (after (closedWhileParked.take 3)).Resuming 0 ∧
      (after (closedWhileParked.take 3)).owner = some 0 ∧
      (after closedWhileParked).undefined = true ∧
      ¬ ∀ pre, pre <+: closedWhileParked → (after pre).Unlocked := by
  have hresuming : (after (closedWhileParked.take 3)).Resuming 0 := ⟨1, rfl, rfl⟩
  refine ⟨hresuming, rfl, rfl, fun h => ?_⟩
  exact (h _ (List.take_prefix 3 closedWhileParked)).resuming 0 hresuming rfl

end Nested

end NeuroVerse.Ipc
