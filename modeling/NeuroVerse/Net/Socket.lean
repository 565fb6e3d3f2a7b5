/-
  Sockets over the host's descriptors (`net/tcp_socket.hpp`, `net/udp_socket.hpp`).

  The first part is about who holds which descriptor. `TcpSocket` and `UdpSocket` have the same
  constructors, assignment, `close` and destructor, and their static functions all take a
  descriptor from `::socket` and give it up again when a later call fails (`acquire`). `accept`
  fails at `::accept` or not at all: there is always memory for the new socket here. The kernel's
  table of open descriptors is part of the environment: any descriptor that is not in it may be
  handed out, so one that was closed comes back, also to other code of the process.
  `after_owned`: every open descriptor is held by exactly one socket or by other code, and no
  socket ever closes a descriptor that is not its own.

  The second part is about one direction of a connection: a writer whose `::send` calls may be
  short, interrupted or fail, and a reader that takes what has arrived. `after_delivered`: what
  was read is what was written, up to what is still on its way.
-/
import NeuroVerse.Lib.Run
import NeuroVerse.Lib.Threads

namespace NeuroVerse.Net.Socket

open Lib

/-! ## Descriptors -/

/-- A process: its sockets in the order they were made, each with its `fd_`, nothing for one that
    is destroyed, and the open descriptors. -/
structure Process where
  sockets : List (Option Int) := []
  table : List Int
  /-- The descriptors that other code holds. -/
  foreign : List Int
  /-- The `::close` calls of sockets that named no open descriptor. -/
  badCloses : Nat := 0

inductive Action where
  | default
  /-- `fd` is what `::socket` gives, `-1` when it fails, and `steps` are the results of the calls
      after it. -/
  | acquire (fd : Int) (steps : List Bool)
  | accept (i : Nat) (fd : Int)
  | moveConstruct (i : Nat)
  | moveAssign (i j : Nat)
  | close (i : Nat)
  | destroy (i : Nat)
  | foreignOpen (fd : Int)
  | foreignClose (fd : Int)

/-- `TcpSocket::connect`: `::socket` and `::connect`. -/
def Action.connect (fd : Int) (connected : Bool) : Action := .acquire fd [connected]

/-- `TcpSocket::listen`: `::socket`, `::bind` and `::listen`. -/
def Action.listen (fd : Int) (bound listening : Bool) : Action := .acquire fd [bound, listening]

/-- `UdpSocket::bind`: `::socket` and `::bind`. -/
def Action.bind (fd : Int) (bound : Bool) : Action := .acquire fd [bound]

namespace Process

/-- A call that opens a descriptor: the kernel gives one that is not open, or fails. -/
def kernelOpen (p : Process) (fd : Int) : Int × Process :=
  if 0 ≤ fd ∧ fd ∉ p.table then (fd, { p with table := fd :: p.table }) else (-1, p)

/-- `::close` from a socket. -/
def kernelClose (p : Process) (fd : Int) : Process :=
  if fd ∈ p.table then { p with table := p.table.erase fd }
  else { p with badCloses := p.badCloses + 1 }

/-- `close` of a socket with this `fd_`: what the kernel is told. -/
def closeFd (p : Process) (fd : Int) : Process :=
  if 0 ≤ fd then p.kernelClose fd else p

def addSocket (p : Process) (fd : Int) : Process := { p with sockets := p.sockets ++ [some fd] }

def setSocket (p : Process) (i : Nat) (s : Option Int) : Process :=
  { p with sockets := p.sockets.set i s }

/-- The `fd_` of a socket that is there. -/
def fd? (p : Process) (i : Nat) : Option Int := (p.sockets[i]?).join

/-- The static functions: a local socket takes the descriptor, and gives it up when a call after
    that fails. It is then destroyed with nothing to close. -/
def acquire (p : Process) (fd : Int) (steps : List Bool) : Process :=
  let (fd, p) := p.kernelOpen fd
  if fd < 0 then p
  else if steps.all id then p.addSocket fd
  else (p.kernelClose fd).closeFd (-1)

def step (p : Process) : Action → Process
  | .default => p.addSocket (-1)
  | .acquire fd steps => p.acquire fd steps
  | .accept i fd =>
    match p.fd? i with
    | none => p
    | some own =>
      -- `::accept` on `-1` fails
      let (newFd, p) := if own < 0 then (-1, p) else p.kernelOpen fd
      if newFd < 0 then p else p.addSocket newFd
  | .moveConstruct i =>
    match p.fd? i with
    | none => p
    | some fd => (p.setSocket i (some (-1))).addSocket fd
  | .moveAssign i j =>
    match p.fd? i, p.fd? j with
    | some fd, some other =>
      if i = j then p
      else ((p.closeFd fd).setSocket i (some other)).setSocket j (some (-1))
    | _, _ => p
  | .close i =>
    match p.fd? i with
    | none => p
    | some fd => (p.closeFd fd).setSocket i (some (-1))
  | .destroy i =>
    match p.fd? i with
    | none => p
    | some fd => (p.closeFd fd).setSocket i none
  | .foreignOpen fd =>
    if 0 ≤ fd ∧ fd ∉ p.table then { p with table := fd :: p.table, foreign := fd :: p.foreign }
    else p
  | .foreignClose fd =>
    if fd ∈ p.foreign then { p with table := p.table.erase fd, foreign := p.foreign.erase fd }
    else p

/-- A process that has made no socket yet. -/
def new (foreign : List Int) : Process := { table := foreign, foreign := foreign }

/-- The descriptor a socket holds. -/
def held : Option Int → Option Int
  | some fd => if 0 ≤ fd then some fd else none
  | none => none

/-- The descriptors that sockets hold. -/
def owned (p : Process) : List Int := p.sockets.filterMap held

/-- Every open descriptor is held once, by a socket or by other code, and every close of a socket
    closed a descriptor. -/
structure Owned (p : Process) : Prop where
  held : p.table.Perm (p.foreign ++ p.owned)
  once : p.table.Nodup
  closes : p.badCloses = 0

variable {p : Process} {i j : Nat} {fd : Int}

/-! ### Which descriptors the sockets hold -/

theorem held_of_nonneg (h : 0 ≤ fd) : held (some fd) = some fd := if_pos h

theorem held_of_neg (h : ¬ 0 ≤ fd) : held (some fd) = none := if_neg h

theorem getElem?_of_fd? (h : p.fd? i = some fd) : p.sockets[i]? = some (some fd) :=
  Option.join_eq_some_iff.mp h

theorem owned_addSocket (fd : Int) :
    (p.addSocket fd).owned = p.owned ++ (held (some fd)).toList := by
  rw [owned, addSocket, List.filterMap_append, List.filterMap_cons]
  cases held (some fd) <;> rfl

theorem owned_cleared {s : Option Int} (h : p.sockets[i]? = some s) (s' : Option Int)
    (hs : held s' = none) : p.owned.Perm ((p.setSocket i s').owned ++ (held s).toList) :=
  filterMap_moved_gone h hs

theorem owned_filled {s : Option Int} (s' : Option Int) (h : p.sockets[i]? = some s)
    (hs : held s = none) : (p.setSocket i s').owned.Perm (p.owned ++ (held s').toList) :=
  filterMap_moved held s' h hs

theorem Owned.congr {p q : Process} (h : Owned p) (htable : q.table = p.table)
    (hforeign : q.foreign = p.foreign) (hcloses : q.badCloses = p.badCloses)
    (howned : q.owned.Perm p.owned) : Owned q where
  held := by
    rw [htable, hforeign]
    exact h.held.trans (howned.symm.append_left _)
  once := htable ▸ h.once
  closes := hcloses.trans h.closes

/-- A socket with no descriptor comes. -/
theorem Owned.default (h : Owned p) : Owned (p.addSocket (-1)) :=
  h.congr rfl rfl rfl (by rw [owned_addSocket, held_of_neg (by decide)]; simp)

/-- A new descriptor goes to a new socket. -/
theorem Owned.opened (h : Owned p) (hfd : 0 ≤ fd) (hnew : fd ∉ p.table) :
    Owned ({ p with table := fd :: p.table }.addSocket fd) where
  held := by
    rw [owned_addSocket, held_of_nonneg hfd]
    show (fd :: p.table).Perm (p.foreign ++ (p.owned ++ [fd]))
    rw [← List.append_assoc]
    exact (h.held.cons fd).trans (List.perm_append_singleton fd _).symm
  once := List.nodup_cons.mpr ⟨hnew, h.once⟩
  closes := h.closes

/-- A socket closes what it has: the descriptor is its own, and no other socket has it. -/
theorem Owned.released (h : Owned p) (hi : p.fd? i = some fd) {s : Option Int}
    (hs : Process.held s = none) : Owned ((p.closeFd fd).setSocket i s) := by
  have hcleared := owned_cleared (getElem?_of_fd? hi) _ hs
  by_cases hfd : 0 ≤ fd
  · rw [held_of_nonneg hfd] at hcleared
    have htable : p.table.Perm (fd :: (p.foreign ++ (p.setSocket i s).owned)) := by
      refine h.held.trans ((hcleared.append_left _).trans ?_)
      rw [← List.append_assoc]
      exact List.perm_append_singleton fd _
    have hmem : fd ∈ p.table := htable.mem_iff.mpr List.mem_cons_self
    rw [closeFd, if_pos hfd, kernelClose, if_pos hmem]
    have herase := htable.erase fd
    rw [List.erase_cons_head] at herase
    exact ⟨herase, h.once.erase fd, h.closes⟩
  · rw [held_of_neg hfd, Option.toList_none, List.append_nil] at hcleared
    rw [closeFd, if_neg hfd]
    exact h.congr rfl rfl rfl hcleared.symm

/-- A descriptor goes from one socket to another that has none. -/
theorem Owned.handed (h : Owned p) (hij : i ≠ j) (hi : p.fd? i = some (-1))
    (hj : p.fd? j = some fd) : Owned ((p.setSocket i (some fd)).setSocket j (some (-1))) := by
  have hcleared := owned_cleared (getElem?_of_fd? hj) (some (-1)) (held_of_neg (by decide))
  have hi' : (p.setSocket j (some (-1))).sockets[i]? = some (some (-1)) :=
    (List.getElem?_set_ne hij.symm).trans (getElem?_of_fd? hi)
  have hfilled := owned_filled (some fd) hi' (held_of_neg (by decide))
  refine h.congr rfl rfl rfl ?_
  have hcomm : ((p.setSocket i (some fd)).setSocket j (some (-1))).owned =
      ((p.setSocket j (some (-1))).setSocket i (some fd)).owned := by
    rw [owned, owned, setSocket, setSocket, setSocket, setSocket, List.set_comm _ _ hij]
  rw [hcomm]
  exact hfilled.trans hcleared.symm

/-! ### The steps -/

/-- What the kernel answers to a call that opens a descriptor. -/
theorem kernelOpen_cases (p : Process) (fd : Int) :
    (p.kernelOpen fd = (fd, { p with table := fd :: p.table }) ∧ 0 ≤ fd ∧ fd ∉ p.table) ∨
      p.kernelOpen fd = (-1, p) := by
  rw [kernelOpen]
  split
  · next h => exact Or.inl ⟨rfl, h⟩
  · exact Or.inr rfl

/-- The descriptor is given up again by the function that opened it. -/
theorem Owned.acquire (h : Owned p) (fd : Int) (steps : List Bool) :
    Owned (p.acquire fd steps) := by
  rw [Process.acquire]
  rcases kernelOpen_cases p fd with ⟨hopen, hfd, hnew⟩ | hopen
  · rw [hopen]
    dsimp only
    rw [if_neg (Int.not_lt.mpr hfd)]
    split
    · exact h.opened hfd hnew
    · rw [closeFd, if_neg (by decide), kernelClose, if_pos List.mem_cons_self]
      dsimp only
      rw [List.erase_cons_head]
      exact h
  · rw [hopen]
    exact h

theorem Owned.accept (h : Owned p) (i : Nat) (fd : Int) : Owned (p.step (.accept i fd)) := by
  rw [step]
  cases p.fd? i with
  | none => exact h
  | some own =>
    dsimp only
    by_cases hown : own < 0
    · rw [if_pos hown]
      exact h
    · rw [if_neg hown]
      rcases kernelOpen_cases p fd with ⟨hopen, hfd, hnew⟩ | hopen
      · rw [hopen]
        dsimp only
        rw [if_neg (Int.not_lt.mpr hfd)]
        exact h.opened hfd hnew
      · rw [hopen]
        exact h

theorem Owned.moveConstruct (h : Owned p) (i : Nat) : Owned (p.step (.moveConstruct i)) := by
  rw [step]
  cases hi : p.fd? i with
  | none => exact h
  | some fd =>
    have hcleared := owned_cleared (getElem?_of_fd? hi) (some (-1))
      (held_of_neg (by decide))
    exact h.congr rfl rfl rfl (by rw [owned_addSocket]; exact hcleared.symm)

theorem Owned.moveAssign (h : Owned p) (i j : Nat) : Owned (p.step (.moveAssign i j)) := by
  rw [step]
  cases hi : p.fd? i with
  | none => exact h
  | some fd =>
    cases hj : p.fd? j with
    | none => exact h
    | some other =>
      dsimp only
      split
      · exact h
      · next hij =>
        -- the target is closed first, so that it has nothing when the descriptor comes
        have hclosed := h.released hi (s := some (-1)) (held_of_neg (by decide))
        have hset : ((p.closeFd fd).setSocket i (some (-1))).setSocket i (some other) =
            (p.closeFd fd).setSocket i (some other) := by
          rw [setSocket, setSocket, setSocket, List.set_set]
        have hsockets : (p.closeFd fd).sockets = p.sockets := by
          rw [closeFd, kernelClose]
          split_ifs <;> rfl
        rw [← hset]
        refine hclosed.handed hij ?_ ?_
        · rw [fd?, setSocket, hsockets, getElem?_moved_self (getElem?_of_fd? hi)]
          rfl
        · rw [fd?, setSocket, hsockets, List.getElem?_set_ne hij, getElem?_of_fd? hj]
          rfl

theorem Owned.foreignOpen (h : Owned p) (fd : Int) : Owned (p.step (.foreignOpen fd)) := by
  rw [step]
  split
  · next hnew => exact ⟨h.held.cons fd, List.nodup_cons.mpr ⟨hnew.2, h.once⟩, h.closes⟩
  · exact h

theorem Owned.foreignClose (h : Owned p) (fd : Int) : Owned (p.step (.foreignClose fd)) := by
  rw [step]
  split
  · next hmem =>
    have herase := h.held.erase fd
    rw [List.erase_append_left _ hmem] at herase
    exact ⟨herase, h.once.erase fd, h.closes⟩
  · exact h

theorem Owned.step (h : Owned p) (a : Action) : Owned (p.step a) := by
  cases a with
  | default => exact h.default
  | acquire fd steps => exact h.acquire fd steps
  | accept i fd => exact h.accept i fd
  | moveConstruct i => exact h.moveConstruct i
  | moveAssign i j => exact h.moveAssign i j
  | close i =>
    rw [Process.step]
    cases hi : p.fd? i with
    | none => exact h
    | some fd => exact h.released hi (held_of_neg (by decide))
  | destroy i =>
    rw [Process.step]
    cases hi : p.fd? i with
    | none => exact h
    | some fd => exact h.released hi rfl
  | foreignOpen fd => exact h.foreignOpen fd
  | foreignClose fd => exact h.foreignClose fd

theorem Owned.new {foreign : List Int} (h : foreign.Nodup) : Owned (new foreign) where
  held := by rw [show (Process.new foreign).owned = [] from rfl, List.append_nil]; rfl
  once := h
  closes := rfl

/-- A descriptor that one socket holds is held by no other one. -/
theorem Owned.alone (h : Owned p) (hi : p.fd? i = some fd) (hj : p.fd? j = some fd)
    (hfd : 0 ≤ fd) : i = j := by
  by_contra hij
  have hcleared := owned_cleared (getElem?_of_fd? hi) none rfl
  rw [held_of_nonneg hfd] at hcleared
  have hj' : (p.setSocket i none).sockets[j]? = some (some fd) :=
    (List.getElem?_set_ne hij).trans (getElem?_of_fd? hj)
  have hmem : fd ∈ (p.setSocket i none).owned :=
    List.mem_filterMap.mpr ⟨_, List.mem_of_getElem? hj', held_of_nonneg hfd⟩
  have hnodup : (p.setSocket i none).owned ++ [fd] |>.Nodup :=
    hcleared.nodup_iff.mp (List.nodup_append.mp (h.held.nodup_iff.mp h.once)).2.1
  exact (List.nodup_append.mp hnodup).2.2 fd hmem fd (List.mem_singleton_self fd) rfl

/-- In every run, from a process whose descriptors belong to other code: each open descriptor
    belongs to exactly one socket or to other code, whose descriptors all stay open; every close
    of a socket closed a descriptor of its own; and when no socket is left, none of theirs is. -/
theorem after_owned {foreign : List Int} (hforeign : foreign.Nodup) (actions : List Action) :
    let p := run step (new foreign) actions
    p.table.Perm (p.foreign ++ p.owned) ∧ p.badCloses = 0 ∧
      (∀ i j fd, 0 ≤ fd → p.fd? i = some fd → p.fd? j = some fd → i = j) ∧
      (∀ fd ∈ p.foreign, fd ∈ p.table ∧ ∀ i, p.fd? i = some fd → fd < 0) ∧
      ((∀ s ∈ p.sockets, s = none) → p.table.Perm p.foreign) := by
  intro p
  have h : Owned p := run_invariant (I := Owned) (Owned.new hforeign)
    (fun _ a h => Owned.step h a) actions
  refine ⟨h.held, h.closes, fun i j fd hfd hi hj => h.alone hi hj hfd, fun fd hmem => ?_, ?_⟩
  · refine ⟨h.held.mem_iff.mpr (List.mem_append_left _ hmem), fun i hi => ?_⟩
    by_contra hfd
    have howned : fd ∈ p.owned := List.mem_filterMap.mpr
      ⟨_, List.mem_of_getElem? (getElem?_of_fd? hi), held_of_nonneg (Int.not_lt.mp hfd)⟩
    exact (List.nodup_append.mp (h.held.nodup_iff.mp h.once)).2.2 fd hmem fd howned rfl
  · intro hgone
    have hnone : p.owned = [] := List.filterMap_eq_nil_iff.mpr fun s hs => by rw [hgone s hs]; rfl
    have hheld := h.held
    rwa [hnone, List.append_nil] at hheld

/-- A socket takes descriptor 3, is moved into another one and destroyed; the other one closes it,
    and other code gets the same number. -/
theorem after_owned_moved :
    ([0, 1, 2] : List Int).Nodup ∧
      (run step (new [0, 1, 2]) [.acquire 3 [true], .default, .moveAssign 1 0, .destroy 0,
        .close 1, .foreignOpen 3, .destroy 1]).table = [3, 0, 1, 2] ∧
      (run step (new [0, 1, 2]) [.acquire 3 [true], .default, .moveAssign 1 0, .destroy 0,
        .close 1, .foreignOpen 3, .destroy 1]).badCloses = 0 := by
  have hnodup : ([0, 1, 2] : List Int).Nodup := by decide
  exact ⟨hnodup, by decide, (after_owned hnodup [.acquire 3 [true], .default, .moveAssign 1 0,
    .destroy 0, .close 1, .foreignOpen 3, .destroy 1]).2.1⟩

end Process

/-! ## One direction of a connection -/

inductive Outcome where
  | running
  | returned
  | threw
  deriving DecidableEq

/-- A call of `write`, with the `off` its loop has come to. -/
structure Write (β : Type*) where
  buf : List β
  off : Nat := 0
  outcome : Outcome := .running

/-- The part of the buffer that `::send` took. -/
def Write.sent {β : Type*} (w : Write β) : List β := w.buf.take w.off

/-- The head of the loop. -/
def Write.loop {β : Type*} (w : Write β) : Write β :=
  if w.off < w.buf.length then w else { w with outcome := .returned }

/-- A call that is over has sent its whole buffer, or it threw. -/
def Write.Done {β : Type*} (w : Write β) : Prop :=
  w.outcome ≠ .running ∧ (w.outcome = .returned → w.buf.length ≤ w.off)

structure Connection (β : Type*) where
  /-- The calls of `write` that are over. -/
  writes : List (Write β) := []
  current : Option (Write β) := none
  /-- What was sent and not yet received. -/
  flight : List β := []
  /-- The sender's socket is closed. -/
  closed : Bool := false
  /-- The connection broke down: nothing more is sent or received. -/
  broken : Bool := false
  /-- The calls of `read` that returned, with their `max_bytes`. -/
  reads : List (Nat × List β) := []

inductive Event (β : Type*) where
  | write (buf : List β)
  /-- `::send` takes `n` bytes. -/
  | send (n : Nat)
  /-- `::send` fails with `EINTR`. -/
  | interrupted
  | sendFailed
  /-- `read(max)`, for which `::recv` has `n` bytes. -/
  | read (max n : Nat)
  | close
  | breakDown

namespace Connection

variable {β : Type*}

/-- The call goes on, or it is over. -/
def put (c : Connection β) (w : Write β) : Connection β :=
  if w.outcome = .running then { c with current := some w }
  else { c with current := none, writes := c.writes ++ [w] }

/-- What `::recv` may answer. It answers nothing at all when nothing is asked for, or when the
    sender has closed and all has been received; else it waits for a byte. -/
def answers (c : Connection β) (max n : Nat) : Bool :=
  !c.broken && n ≤ max && n ≤ c.flight.length &&
    (0 < n || max = 0 || (c.closed && c.flight.isEmpty))

def step (c : Connection β) : Event β → Connection β
  | .write buf =>
    match c.current with
    | none => c.put { buf : Write β }.loop
    | some _ => c
  | .send n =>
    match c.current with
    | none => c
    | some w =>
      if c.closed || c.broken || w.buf.length - w.off < n then c
      else
        { c with flight := c.flight ++ (w.buf.drop w.off).take n }.put
          { w with off := w.off + n }.loop
  | .interrupted =>
    match c.current with
    | none => c
    | some w => c.put w.loop
  | .sendFailed =>
    match c.current with
    | none => c
    | some w => c.put { w with outcome := .threw }
  | .read max n =>
    if c.answers max n then
      { c with reads := c.reads ++ [(max, c.flight.take n)], flight := c.flight.drop n }
    else c
  -- the sending thread closes, so that no call of it is running
  | .close => if c.current.isNone then { c with closed := true } else c
  | .breakDown => { c with flight := [], broken := true }

/-- The bytes that `::send` took. -/
def sent (c : Connection β) : List β :=
  c.writes.flatMap Write.sent ++ c.current.elim [] Write.sent

/-- The bytes that `read` gave. -/
def received (c : Connection β) : List β := c.reads.flatMap Prod.snd

structure Delivered (c : Connection β) : Prop where
  /-- Nothing is lost, doubled or out of order. -/
  whole : ∃ lost, c.received ++ c.flight ++ lost = c.sent ∧ (c.broken = false → lost = [])
  /-- The running call has bytes left to send. -/
  running : ∀ w, c.current = some w → w.outcome = .running ∧ w.off < w.buf.length
  finished : ∀ w ∈ c.writes, Write.Done w
  sizes : ∀ r ∈ c.reads, r.2.length ≤ r.1
  /-- An empty answer says that the sender has closed and that all was read. -/
  ending : (∃ r ∈ c.reads, 0 < r.1 ∧ r.2 = []) → c.closed = true ∧ c.received = c.sent

/-! ### What a call of `write` has sent -/

@[simp] theorem put_reads (c : Connection β) (w : Write β) : (c.put w).reads = c.reads := by
  rw [put]; split <;> rfl

@[simp] theorem put_flight (c : Connection β) (w : Write β) : (c.put w).flight = c.flight := by
  rw [put]; split <;> rfl

@[simp] theorem put_closed (c : Connection β) (w : Write β) : (c.put w).closed = c.closed := by
  rw [put]; split <;> rfl

@[simp] theorem put_broken (c : Connection β) (w : Write β) : (c.put w).broken = c.broken := by
  rw [put]; split <;> rfl

@[simp] theorem put_received (c : Connection β) (w : Write β) :
    (c.put w).received = c.received := by
  rw [received, received, put_reads]

theorem sent_current_none {c : Connection β} (h : c.current = none) :
    c.sent = c.writes.flatMap Write.sent := by
  rw [sent, h, Option.elim_none, List.append_nil]

theorem put_sent (c : Connection β) (w : Write β) :
    (c.put w).sent = c.writes.flatMap Write.sent ++ w.sent := by
  rw [put, sent]
  split
  · rfl
  · simp

theorem put_current {c : Connection β} {w v : Write β} (h : (c.put w).current = some v) :
    v = w ∧ w.outcome = .running := by
  rw [put] at h
  split at h
  · next hout => exact ⟨(Option.some.inj h).symm, hout⟩
  · exact nomatch h

theorem put_writes {c : Connection β} {w v : Write β} (h : v ∈ (c.put w).writes) :
    v ∈ c.writes ∨ (v = w ∧ w.outcome ≠ .running) := by
  rw [put] at h
  split at h
  · exact Or.inl h
  · next hout => exact (List.mem_append.mp h).imp_right fun hv => ⟨List.mem_singleton.mp hv, hout⟩

theorem loop_sent (w : Write β) : w.loop.sent = w.sent := by
  rw [Write.loop]
  split <;> rfl

/-- The loop goes on exactly as long as bytes are left. -/
theorem loop_cases (w : Write β) (h : w.outcome = .running) :
    (w.loop.outcome = .running ∧ w.loop.off < w.loop.buf.length) ∨
      Write.Done w.loop := by
  rw [Write.loop]
  split
  · next hlt => exact Or.inl ⟨h, hlt⟩
  · next hge =>
    exact Or.inr ⟨Outcome.noConfusion, fun _ => Nat.not_lt.mp hge⟩

/-- `off` moves over what `::send` took. -/
theorem sent_advanced (w : Write β) (n : Nat) :
    { w with off := w.off + n }.sent = w.sent ++ (w.buf.drop w.off).take n :=
  List.take_add

/-! ### The steps -/

/-- The call of `write` moves on, and what it has sent since is on its way. -/
theorem Delivered.put {c : Connection β} (h : Delivered c) (w : Write β) (bytes : List β)
    (hw : (w.outcome = .running ∧ w.off < w.buf.length) ∨ Write.Done w)
    (hsent : c.writes.flatMap Write.sent ++ w.sent = c.sent ++ bytes)
    (hopen : bytes = [] ∨ (c.closed = false ∧ c.broken = false)) :
    Delivered ({ c with flight := c.flight ++ bytes }.put w) where
  whole := by
    obtain ⟨lost, hwhole, hlost⟩ := h.whole
    refine ⟨lost, ?_, by rwa [put_broken]⟩
    have hmoved : c.received ++ (c.flight ++ bytes) ++ lost = c.sent ++ bytes := by
      rcases hopen with rfl | ⟨-, hbroken⟩
      · rw [List.append_nil, List.append_nil, hwhole]
      · rw [← hwhole, hlost hbroken, List.append_nil, List.append_nil, List.append_assoc]
    rw [put_received, put_flight, put_sent]
    exact hmoved.trans hsent.symm
  running v hv := by
    obtain ⟨rfl, hout⟩ := put_current hv
    exact hw.resolve_right fun hdone => hdone.1 hout
  finished v hv := by
    rcases put_writes hv with hv | ⟨rfl, hout⟩
    · exact h.finished v hv
    · exact hw.resolve_left fun hrun => hout hrun.1
  sizes r hr := h.sizes r (by rwa [put_reads] at hr)
  ending hr := by
    rw [put_reads] at hr
    obtain ⟨hclosed, hall⟩ := h.ending hr
    -- nothing is sent any more
    have hnone : bytes = [] := hopen.resolve_right fun hno => by simp [hclosed] at hno
    subst hnone
    rw [put_closed, put_received, put_sent]
    exact ⟨hclosed, hall.trans (by rw [hsent, List.append_nil])⟩

theorem Delivered.write {c : Connection β} (h : Delivered c) (buf : List β) :
    Delivered (c.step (.write buf)) := by
  rw [step]
  cases hc : c.current with
  | some w => exact h
  | none =>
    have hput := h.put (Write.loop { buf := buf }) []
      (loop_cases _ rfl) ?_ (Or.inl rfl)
    · rwa [List.append_nil] at hput
    · rw [loop_sent, sent_current_none hc]
      rfl

theorem Delivered.send {c : Connection β} (h : Delivered c) (n : Nat) :
    Delivered (c.step (.send n)) := by
  rw [step]
  cases hc : c.current with
  | none => exact h
  | some w =>
    dsimp only
    split
    · exact h
    · next hopen =>
      simp only [Bool.or_eq_true, decide_eq_true_eq, not_or, Bool.not_eq_true] at hopen
      refine h.put _ _ (loop_cases _ (h.running w hc).1) ?_ (Or.inr hopen.1)
      rw [loop_sent, sent_advanced, sent, hc, List.append_assoc]
      rfl

/-- The call moves on without sending. -/
theorem Delivered.stays {c : Connection β} (h : Delivered c) {w w' : Write β}
    (hc : c.current = some w) (hw : (w'.outcome = .running ∧ w'.off < w'.buf.length) ∨ w'.Done)
    (hsent : w'.sent = w.sent) : Delivered (c.put w') := by
  have hput := h.put w' [] hw (by rw [hsent, sent, hc, List.append_nil]; rfl) (Or.inl rfl)
  rwa [List.append_nil] at hput

theorem Delivered.read {c : Connection β} (h : Delivered c) (max n : Nat) :
    Delivered (c.step (.read max n)) := by
  rw [step]
  split
  · next hanswers =>
    simp only [answers, Bool.and_eq_true, Bool.not_eq_true', decide_eq_true_eq, Bool.or_eq_true,
      List.isEmpty_iff] at hanswers
    obtain ⟨⟨⟨hbroken, hmax⟩, hlen⟩, hempty⟩ := hanswers
    obtain ⟨lost, hwhole, hlost⟩ := h.whole
    have hrec : received { c with
        reads := c.reads ++ [(max, c.flight.take n)], flight := c.flight.drop n } =
        c.received ++ c.flight.take n := by
      rw [received, List.flatMap_append, List.flatMap_singleton]
      rfl
    refine ⟨⟨lost, ?_, hlost⟩, h.running, h.finished, fun r hr => ?_, ?_⟩
    · rw [hrec, List.append_assoc c.received, List.take_append_drop]
      exact hwhole
    · rcases List.mem_append.mp hr with hr | hr
      · exact h.sizes r hr
      · rw [List.mem_singleton.mp hr, List.length_take]
        omega
    · rintro ⟨r, hr, hpos, hnil⟩
      rw [hrec]
      have hend : c.closed = true ∧ c.flight = [] := by
        rcases List.mem_append.mp hr with hr | hr
        · obtain ⟨hclosed, hall⟩ := h.ending ⟨r, hr, hpos, hnil⟩
          refine ⟨hclosed, ?_⟩
          rw [hall, List.append_assoc] at hwhole
          exact (List.append_eq_nil_iff.mp (List.append_right_eq_self.mp hwhole)).1
        · rw [List.mem_singleton.mp hr] at hpos hnil
          have hn : ¬ 0 < n := by
            intro hn
            have := congrArg List.length hnil
            rw [List.length_take, List.length_nil] at this
            omega
          exact (hempty.resolve_left fun hor => hor.elim hn (by omega))
      refine ⟨hend.1, ?_⟩
      rw [hend.2, List.take_nil, List.append_nil]
      rw [hend.2, hlost hbroken, List.append_nil, List.append_nil] at hwhole
      exact hwhole
  · exact h

theorem Delivered.breakDown {c : Connection β} (h : Delivered c) :
    Delivered (c.step .breakDown) where
  whole := by
    obtain ⟨lost, hwhole, -⟩ := h.whole
    refine ⟨c.flight ++ lost, ?_, fun hbroken => nomatch hbroken⟩
    show c.received ++ [] ++ (c.flight ++ lost) = c.sent
    rw [List.append_nil, ← List.append_assoc, hwhole]
  running := h.running
  finished := h.finished
  sizes := h.sizes
  ending := h.ending

theorem Delivered.step {c : Connection β} (h : Delivered c) (e : Event β) :
    Delivered (c.step e) := by
  cases e with
  | write buf => exact h.write buf
  | send n => exact h.send n
  | interrupted =>
    rw [Connection.step]
    cases hc : c.current with
    | none => exact h
    | some w => exact h.stays hc (loop_cases w (h.running w hc).1) (loop_sent w)
  | sendFailed =>
    rw [Connection.step]
    cases hc : c.current with
    | none => exact h
    | some w =>
      exact h.stays hc (Or.inr ⟨Outcome.noConfusion, Outcome.noConfusion⟩) rfl
  | read max n => exact h.read max n
  | close =>
    rw [Connection.step]
    split
    · exact ⟨h.whole, h.running, h.finished, h.sizes, fun hr => ⟨rfl, (h.ending hr).2⟩⟩
    · exact h
  | breakDown => exact h.breakDown

theorem Delivered.new : Delivered ({} : Connection β) where
  whole := ⟨[], rfl, fun _ => rfl⟩
  running _ h := nomatch h
  finished _ h := nomatch h
  sizes _ h := nomatch h
  ending := fun ⟨_, hr, _⟩ => nomatch hr

/-- In every run: what `read` gave, followed by what is on its way, is what the calls of `write`
    sent, in order, and a connection that broke down lost only an end of it. A call that returned
    sent its whole buffer, one that threw sent a beginning of it. After an empty answer to a read
    that asked for something, and when every call has returned, all that was written was read. -/
theorem after_delivered (events : List (Event β)) :
    let c := run step ({} : Connection β) events
    c.received <+: c.sent ∧ (c.broken = false → c.received ++ c.flight = c.sent) ∧
      (∀ w ∈ c.writes, w.sent <+: w.buf ∧ (w.outcome = .returned → w.sent = w.buf)) ∧
      (∀ r ∈ c.reads, r.2.length ≤ r.1) ∧
      ((∃ r ∈ c.reads, 0 < r.1 ∧ r.2 = []) → c.current = none →
        (∀ w ∈ c.writes, w.outcome = .returned) →
        c.received = c.writes.flatMap Write.buf) := by
  intro c
  have h : Delivered c := run_invariant (I := Delivered) Delivered.new
    (fun _ e h => Delivered.step h e) events
  have hdone : ∀ w ∈ c.writes, w.outcome = .returned → w.sent = w.buf := fun w hw hout =>
    List.take_of_length_le ((h.finished w hw).2 hout)
  obtain ⟨lost, hwhole, hlost⟩ := h.whole
  refine ⟨⟨c.flight ++ lost, by rw [← List.append_assoc, hwhole]⟩, fun hbroken => ?_,
    fun w hw => ⟨List.take_prefix _ _, hdone w hw⟩, h.sizes, fun hr hc hall => ?_⟩
  · rw [← hwhole, hlost hbroken, List.append_nil]
  · rw [(h.ending hr).2, sent_current_none hc]
    exact List.flatMap_congr fun w hw => hdone w hw (hall w hw)

end Connection

end NeuroVerse.Net.Socket
