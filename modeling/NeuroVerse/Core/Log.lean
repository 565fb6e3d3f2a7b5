/-
  Logging (`core/log.hpp`): the level filter, the global sink, and the two scope objects that
  change where records go and what fields they carry.

  The sink is one variable of the process and the stack of context fields one of each thread; a
  scope object saves what it changes and puts it back in its destructor, which runs when its block
  is left, normally or by an exception. `Logger` is the code, with the objects that are alive in
  each thread; `Lexical` says what scopes are for: a record carries the fields of the blocks its
  thread is in, inner ones before outer ones and those before its own, and goes to the sink of the
  innermost block that has one. `after_lexical`: the fields are so in every run of any number of
  threads, and the sinks are when the blocks that redirect them nest across threads.

  A call is one step: the sink and the level are plain variables, and calls that touch them from
  two threads have to be kept apart.
-/
import NeuroVerse.Lib.Run
import Mathlib.Data.List.AList
import Mathlib.Logic.Function.Basic

namespace NeuroVerse.Core.Log

open Lib

/-! ## Records and sinks -/

inductive Level where
  | trace
  | debug
  | info
  | warn
  | error
  deriving DecidableEq

def Level.value : Level → Nat
  | .trace => 0
  | .debug => 1
  | .info => 2
  | .warn => 3
  | .error => 4

/-- The kinds of a field's value; `δ` is the type of doubles. -/
inductive FieldValue (δ : Type*) where
  | string (s : String)
  | integer (n : Int)
  | double (x : δ)
  | bool (b : Bool)

/-- A `Field` after `field_value`. -/
abbrev Field (δ : Type*) := String × FieldValue δ

structure Record (δ : Type*) where
  level : Level
  message : String
  fields : AList fun _ : String => FieldValue δ
  /-- The file and the line. -/
  location : String × Nat

def makeRecord {δ : Type*} (level : Level) (message : String) (location : String × Nat) :
    Record δ where
  level := level
  message := message
  fields := ∅
  location := location

def addField {δ : Type*} (record : Record δ) (f : Field δ) : Record δ :=
  { record with fields := record.fields.insert f.1 f.2 }

/-- A client's sink, or the `n`-th `StderrSink` that the library made. -/
inductive Sink (σ : Type*) where
  | client (s : σ)
  | stderr (n : Nat)

/-- A scope object with what it saved. -/
inductive Scope (σ : Type*) where
  | sink (previous : Option (Sink σ))
  | context (previousCount : Nat)

/-- The variables of the library, the scope objects alive in each thread, innermost first, and
    what the sinks were given. -/
structure Logger (τ σ δ : Type*) where
  globalSink : Option (Sink σ) := none
  /-- How many `StderrSink`s were made. -/
  made : Nat := 0
  globalLevel : Level := .info
  contextStack : τ → List (Field δ) := fun _ => []
  scopes : τ → List (Scope σ) := fun _ => []
  emitted : List (Sink σ × Record δ) := []

inductive Action (τ σ δ : Type*) where
  | openSink (t : τ) (sink : Option σ)
  | openContext (t : τ) (field : Field δ)
  /-- The innermost scope object of the thread is destroyed. -/
  | leave (t : τ)
  | setSink (sink : Option σ)
  | setLevel (level : Level)
  | log (t : τ) (level : Level) (message : String) (location : String × Nat)
      (fields : List (Field δ))

/-! ## The library -/

namespace Logger

variable {τ σ δ : Type*} [DecidableEq τ] (l : Logger τ σ δ)

/-- `global_sink`: the sink, made when there is none. -/
def getSink : Sink σ × Logger τ σ δ :=
  match l.globalSink with
  | some s => (s, l)
  | none =>
    (.stderr l.made, { l with globalSink := some (.stderr l.made), made := l.made + 1 })

/-- `set_sink`: what it returns, and what it leaves. -/
def setSink (sink : Option (Sink σ)) : Option (Sink σ) × Logger τ σ δ :=
  (l.globalSink, match sink with
    | some s => { l with globalSink := some s }
    | none => { l with globalSink := some (.stderr l.made), made := l.made + 1 })

def emit (record : Record δ) : Logger τ σ δ :=
  if record.level.value < l.globalLevel.value then l
  else
    let (s, l) := l.getSink
    { l with emitted := l.emitted ++ [(s, record)] }

/-- `with_fields`. -/
def withFields (record : Record δ) (fields : List (Field δ)) : Record δ :=
  fields.foldl addField record

/-- `with_context`, in thread `t`. -/
def withContext (t : τ) (record : Record δ) : Record δ := (l.contextStack t).foldl addField record

def push (t : τ) (scope : Scope σ) : Logger τ σ δ :=
  { l with scopes := Function.update l.scopes t (scope :: l.scopes t) }

/-- The constructor of `ScopedLogSink`. -/
def openSink (t : τ) (sink : Option σ) : Logger τ σ δ :=
  let (previous, l) := l.setSink (sink.map .client)
  l.push t (.sink previous)

/-- The constructor of `ScopedLogContext`. -/
def openContext (t : τ) (field : Field δ) : Logger τ σ δ :=
  { l.push t (.context (l.contextStack t).length) with
    contextStack := Function.update l.contextStack t (l.contextStack t ++ [field]) }

/-- The destructor of a scope object of thread `t`. -/
def destroy (t : τ) : Scope σ → Logger τ σ δ
  | .sink previous => (l.setSink previous).2
  | .context previousCount =>
    if previousCount < (l.contextStack t).length then
      { l with contextStack :=
          Function.update l.contextStack t ((l.contextStack t).take previousCount) }
    else l

def leave (t : τ) : Logger τ σ δ :=
  match l.scopes t with
  | [] => l
  | scope :: rest => { l.destroy t scope with scopes := Function.update l.scopes t rest }

def step (l : Logger τ σ δ) : Action τ σ δ → Logger τ σ δ
  | .openSink t sink => l.openSink t sink
  | .openContext t field => l.openContext t field
  | .leave t => l.leave t
  | .setSink sink => (l.setSink (sink.map .client)).2
  | .setLevel level => { l with globalLevel := level }
  | .log t level message location fields =>
    l.emit (l.withContext t (withFields (makeRecord level message location) fields))

end Logger

/-! ## What scopes are for -/

/-- Where records go: all `StderrSink`s write to one place. -/
inductive Output (σ : Type*) where
  | client (s : σ)
  | stderr

/-- A record as it is read: what each key says. -/
structure Entry (δ : Type*) where
  level : Level
  message : String
  location : String × Nat
  field : String → Option (FieldValue δ)

/-- A block that a thread is in. -/
inductive Block (δ : Type*) where
  | sink
  | context (field : Field δ)

/-- The blocks each thread is in, innermost first, the output, and the outputs that the open
    redirections hide, each with the thread that redirects. -/
structure Lexical (τ σ δ : Type*) where
  level : Level := .info
  blocks : τ → List (Block δ) := fun _ => []
  output : Output σ := .stderr
  hidden : List (τ × Output σ) := []
  emitted : List (Output σ × Entry δ) := []

/-- The fields of the blocks, innermost first. -/
def contexts {δ : Type*} : List (Block δ) → List (Field δ)
  | [] => []
  | .sink :: blocks => contexts blocks
  | .context field :: blocks => field :: contexts blocks

namespace Lexical

variable {τ σ δ : Type*} [DecidableEq τ]

def toOutput : Option σ → Output σ
  | some s => .client s
  | none => .stderr

/-- The entry that a call in these blocks makes. -/
def entry (blocks : List (Block δ)) (level : Level) (message : String) (location : String × Nat)
    (fields : List (Field δ)) : Entry δ where
  level := level
  message := message
  location := location
  field key := (contexts blocks ++ fields.reverse).lookup key

def step (a : Lexical τ σ δ) : Action τ σ δ → Lexical τ σ δ
  | .openSink t sink =>
    { a with
      blocks := Function.update a.blocks t (.sink :: a.blocks t)
      output := toOutput sink
      hidden := (t, a.output) :: a.hidden }
  | .openContext t field =>
    { a with blocks := Function.update a.blocks t (.context field :: a.blocks t) }
  | .leave t =>
    match a.blocks t with
    | [] => a
    | .context _ :: rest => { a with blocks := Function.update a.blocks t rest }
    | .sink :: rest =>
      { a with
        blocks := Function.update a.blocks t rest
        output := (a.hidden.head?.map Prod.snd).getD a.output
        hidden := a.hidden.tail }
  | .setSink sink => { a with output := toOutput sink }
  | .setLevel level => { a with level := level }
  | .log t level message location fields =>
    if level.value < a.level.value then a
    else { a with emitted := a.emitted ++ [(a.output, entry (a.blocks t) level message location
      fields)] }

/-- A thread that ends a redirection ends the one that began last. -/
def Nested (a : Lexical τ σ δ) : Action τ σ δ → Prop
  | .leave t =>
    match a.blocks t with
    | .sink :: _ => a.hidden.head?.map Prod.fst = some t
    | _ => True
  | _ => True

instance (a : Lexical τ σ δ) (action : Action τ σ δ) : Decidable (Nested a action) := by
  unfold Nested
  split
  · split <;> infer_instance
  · infer_instance

end Lexical

/-! ## Fields -/

section Fields

variable {σ δ : Type*}

def Sink.output : Sink σ → Output σ
  | .client s => .client s
  | .stderr _ => .stderr

/-- A null sink is replaced by a `StderrSink` before it is used. -/
def shown (sink : Option (Sink σ)) : Output σ := (sink.map Sink.output).getD .stderr

def Record.entry (record : Record δ) : Entry δ where
  level := record.level
  message := record.message
  location := record.location
  field key := record.fields.lookup key

theorem lookup_addField (record : Record δ) (f : Field δ) (key : String) :
    (addField record f).fields.lookup key = ([f].lookup key).or (record.fields.lookup key) := by
  rw [addField, List.lookup_cons]
  by_cases hkey : key = f.1
  · subst hkey
    rw [AList.lookup_insert, beq_self_eq_true]
    rfl
  · rw [AList.lookup_insert_ne hkey, beq_false_of_ne hkey]
    rfl

/-- Of the fields that are added, the last one with a key counts. -/
theorem lookup_foldl_addField (fields : List (Field δ)) (record : Record δ) (key : String) :
    (fields.foldl addField record).fields.lookup key =
      (fields.reverse.lookup key).or (record.fields.lookup key) := by
  induction fields generalizing record with
  | nil => rfl
  | cons f fields ih =>
    rw [List.foldl_cons, ih, lookup_addField, List.reverse_cons, List.lookup_append,
      Option.or_assoc]

theorem foldl_addField_rest (fields : List (Field δ)) (record : Record δ) :
    (fields.foldl addField record).level = record.level ∧
      (fields.foldl addField record).message = record.message ∧
      (fields.foldl addField record).location = record.location := by
  induction fields generalizing record with
  | nil => exact ⟨rfl, rfl, rfl⟩
  | cons f fields ih => exact ih (addField record f)

end Fields

/-! ## The code and the blocks -/

namespace Logger

variable {τ σ δ : Type*} {l : Logger τ σ δ} {a : Lexical τ σ δ}

/-- The scope objects of a thread are those of its blocks, and each context saved the number of
    the context fields outside of it. -/
inductive Holds : List (Scope σ) → List (Block δ) → Prop where
  | nil : Holds [] []
  | sink {scopes blocks} (previous : Option (Sink σ)) (rest : Holds scopes blocks) :
      Holds (.sink previous :: scopes) (.sink :: blocks)
  | context {scopes blocks} (field : Field δ) (rest : Holds scopes blocks) :
      Holds (.context (contexts blocks).length :: scopes) (.context field :: blocks)

/-- What holds in every run: the records and the fields. -/
structure Carries (l : Logger τ σ δ) (a : Lexical τ σ δ) : Prop where
  level : l.globalLevel = a.level
  scopes : ∀ t, Holds (l.scopes t) (a.blocks t)
  stack : ∀ t, l.contextStack t = (contexts (a.blocks t)).reverse
  records : l.emitted.map (fun e => e.2.entry) = a.emitted.map Prod.snd

theorem setSink_rest (l : Logger τ σ δ) (sink : Option (Sink σ)) :
    (l.setSink sink).2.globalLevel = l.globalLevel ∧ (l.setSink sink).2.scopes = l.scopes ∧
      (l.setSink sink).2.contextStack = l.contextStack ∧
      (l.setSink sink).2.emitted = l.emitted := by
  cases sink <;> exact ⟨rfl, rfl, rfl, rfl⟩

theorem Carries.setSink (h : Carries l a) (sink : Option (Sink σ)) (o : Output σ) :
    Carries (l.setSink sink).2 { a with output := o } := by
  obtain ⟨hlevel, hscopes, hstack, hemitted⟩ := setSink_rest l sink
  exact ⟨hlevel.trans h.level, fun t => by rw [hscopes]; exact h.scopes t,
    fun t => by rw [hstack]; exact h.stack t, by rw [hemitted]; exact h.records⟩

/-- The record of a call says what its blocks and its own fields say. -/
theorem Carries.entry_eq (h : Carries l a) (t : τ) (level : Level) (message : String)
    (location : String × Nat) (fields : List (Field δ)) :
    (l.withContext t (withFields (makeRecord level message location) fields)).entry =
      Lexical.entry (a.blocks t) level message location fields := by
  have hown := foldl_addField_rest fields (makeRecord (δ := δ) level message location)
  have hall := foldl_addField_rest (l.contextStack t)
    (withFields (makeRecord level message location) fields)
  rw [withContext, Record.entry, Lexical.entry, hall.1, hall.2.1, hall.2.2, withFields, hown.1,
    hown.2.1, hown.2.2]
  refine congrArg (Entry.mk level message location) (funext fun key => ?_)
  rw [lookup_foldl_addField, lookup_foldl_addField, h.stack, List.reverse_reverse,
    List.lookup_append, makeRecord, AList.lookup_empty, Option.or_none]

theorem emit_rest (l : Logger τ σ δ) (record : Record δ) :
    (l.emit record).globalLevel = l.globalLevel ∧ (l.emit record).scopes = l.scopes ∧
      (l.emit record).contextStack = l.contextStack := by
  rw [emit, getSink]
  split
  · exact ⟨rfl, rfl, rfl⟩
  · cases l.globalSink <;> exact ⟨rfl, rfl, rfl⟩

/-- What a call gives to the sink that it finds. -/
theorem emit_emitted (l : Logger τ σ δ) (record : Record δ) :
    ∃ s : Sink σ, s.output = shown l.globalSink ∧ shown (l.emit record).globalSink = s.output ∧
      (l.emit record).emitted = if record.level.value < l.globalLevel.value then l.emitted
        else l.emitted ++ [(s, record)] := by
  rw [emit, getSink]
  cases hs : l.globalSink with
  | none =>
    refine ⟨.stderr l.made, rfl, ?_, ?_⟩
    · split
      · rw [hs]; rfl
      · rfl
    · split <;> rfl
  | some s =>
    refine ⟨s, rfl, ?_, ?_⟩
    · split <;> rw [hs] <;> rfl
    · split <;> rfl

theorem shown_setSink (l : Logger τ σ δ) (sink : Option (Sink σ)) :
    shown (l.setSink sink).2.globalSink = shown sink := by
  cases sink <;> rfl

theorem shown_client (sink : Option σ) :
    shown (sink.map Sink.client) = Lexical.toOutput sink := by
  cases sink <;> rfl

section Threads

variable [DecidableEq τ]

theorem Carries.log (h : Carries l a) (t : τ) (level : Level) (message : String)
    (location : String × Nat) (fields : List (Field δ)) :
    Carries (l.step (.log t level message location fields))
      (a.step (.log t level message location fields)) := by
  rw [step, Lexical.step]
  have hentry := h.entry_eq t level message location fields
  set record := l.withContext t (withFields (makeRecord level message location) fields)
  have hlevel : record.level = level := congrArg Entry.level hentry
  obtain ⟨hkeeps, hscopes, hstack⟩ := emit_rest l record
  obtain ⟨s, -, -, hemitted⟩ := emit_emitted l record
  rw [hlevel, h.level] at hemitted
  split
  · next hlow =>
    rw [if_pos hlow] at hemitted
    exact ⟨hkeeps.trans h.level, fun t => by rw [hscopes]; exact h.scopes t,
      fun t => by rw [hstack]; exact h.stack t, by rw [hemitted]; exact h.records⟩
  · next hhigh =>
    rw [if_neg hhigh] at hemitted
    refine ⟨hkeeps.trans h.level, fun t => by rw [hscopes]; exact h.scopes t,
      fun t => by rw [hstack]; exact h.stack t, ?_⟩
    rw [hemitted, List.map_append, List.map_append, h.records, List.map_singleton, hentry]
    rfl

/-- The blocks of one thread change. -/
theorem Carries.changes (h : Carries l a) (t : τ) {l' : Logger τ σ δ} {a' : Lexical τ σ δ}
    {scopes : List (Scope σ)} {blocks : List (Block δ)} (stack : List (Field δ))
    (hlevel : l'.globalLevel = l.globalLevel ∧ a'.level = a.level)
    (hscopes : l'.scopes = Function.update l.scopes t scopes)
    (hstack : l'.contextStack = Function.update l.contextStack t stack)
    (hblocks : a'.blocks = Function.update a.blocks t blocks)
    (hemitted : l'.emitted = l.emitted ∧ a'.emitted = a.emitted)
    (hholds : Holds scopes blocks) (hcontexts : stack = (contexts blocks).reverse) :
    Carries l' a' where
  level := by rw [hlevel.1, hlevel.2, h.level]
  scopes t' := by
    rw [hscopes, hblocks]
    by_cases ht : t' = t
    · subst ht
      rwa [Function.update_self, Function.update_self]
    · rw [Function.update_of_ne ht, Function.update_of_ne ht]
      exact h.scopes t'
  stack t' := by
    rw [hstack, hblocks]
    by_cases ht : t' = t
    · subst ht
      rwa [Function.update_self, Function.update_self]
    · rw [Function.update_of_ne ht, Function.update_of_ne ht]
      exact h.stack t'
  records := by rw [hemitted.1, hemitted.2, h.records]

theorem Carries.openSink (h : Carries l a) (t : τ) (sink : Option σ) :
    Carries (l.step (.openSink t sink)) (a.step (.openSink t sink)) := by
  obtain ⟨hlevel, hscopes, hstack, hemitted⟩ := setSink_rest l (sink.map Sink.client)
  refine h.changes t (l.contextStack t) ⟨hlevel, rfl⟩
    (congrArg (fun f => Function.update f t _) hscopes) ?_ rfl ⟨hemitted, rfl⟩ ?_ (h.stack t)
  · rw [Function.update_eq_self]
    exact hstack
  · show Holds (_ :: (l.setSink (sink.map Sink.client)).2.scopes t) _
    rw [hscopes]
    exact .sink _ (h.scopes t)

theorem Carries.openContext (h : Carries l a) (t : τ) (field : Field δ) :
    Carries (l.step (.openContext t field)) (a.step (.openContext t field)) := by
  refine h.changes t _ ⟨rfl, rfl⟩ rfl rfl rfl ⟨rfl, rfl⟩ ?_ ?_
  · have hlen : (l.contextStack t).length = (contexts (a.blocks t)).length := by
      rw [h.stack, List.length_reverse]
    rw [hlen]
    exact .context field (h.scopes t)
  · rw [h.stack, contexts, List.reverse_cons]

theorem Carries.leave (h : Carries l a) (t : τ) :
    Carries (l.step (.leave t)) (a.step (.leave t)) := by
  have hholds := h.scopes t
  have hstack := h.stack t
  rw [step, Logger.leave, Lexical.step]
  generalize hscopes : l.scopes t = scopes at hholds
  generalize hblocks : a.blocks t = blocks at hholds hstack
  cases hholds with
  | nil => exact h
  | sink previous rest =>
    obtain ⟨hlevel, -, hcontext, hemitted⟩ := setSink_rest l previous
    refine h.changes t (l.contextStack t) ⟨hlevel, rfl⟩ rfl ?_ rfl ⟨hemitted, rfl⟩ rest hstack
    rw [Function.update_eq_self]
    exact hcontext
  | context field rest =>
    rename_i blocks
    rw [contexts, List.reverse_cons] at hstack
    have hlt : (contexts blocks).length < (l.contextStack t).length := by
      rw [hstack, List.length_append, List.length_reverse, List.length_singleton]
      exact Nat.lt_succ_self _
    dsimp only
    rw [destroy, if_pos hlt]
    refine h.changes t _ ⟨rfl, rfl⟩ rfl rfl rfl ⟨rfl, rfl⟩ rest ?_
    rw [hstack, ← List.length_reverse, List.take_left]

theorem Carries.step (h : Carries l a) (action : Action τ σ δ) :
    Carries (l.step action) (a.step action) := by
  cases action with
  | openSink t sink => exact h.openSink t sink
  | openContext t field => exact h.openContext t field
  | leave t => exact h.leave t
  | setSink sink => exact h.setSink _ _
  | setLevel level => exact ⟨rfl, h.scopes, h.stack, h.records⟩
  | log t level message location fields => exact h.log t level message location fields

/-- The sinks that the open redirections of a thread saved. -/
def saved : List (Scope σ) → List (Output σ)
  | [] => []
  | .context _ :: scopes => saved scopes
  | .sink previous :: scopes => shown previous :: saved scopes

/-- What holds as long as the redirections nest: where records go. -/
structure Directs (l : Logger τ σ δ) (a : Lexical τ σ δ) : Prop extends Carries l a where
  current : shown l.globalSink = a.output
  hidden : ∀ t, saved (l.scopes t) = (a.hidden.filter fun e => e.1 = t).map Prod.snd
  outputs : l.emitted.map (fun e => (e.1.output, e.2.entry)) = a.emitted

theorem destroy_context_rest (l : Logger τ σ δ) (t : τ) (n : Nat) :
    (l.destroy t (.context n)).globalSink = l.globalSink ∧
      (l.destroy t (.context n)).emitted = l.emitted := by
  rw [destroy]
  split <;> exact ⟨rfl, rfl⟩

/-- The scope objects of one thread change, and the outputs that its redirections hide. -/
theorem Directs.changes (h : Directs l a) (t : τ) {l' : Logger τ σ δ} {a' : Lexical τ σ δ}
    (h' : Carries l' a') {scopes : List (Scope σ)}
    (hscopes : l'.scopes = Function.update l.scopes t scopes)
    (hcurrent : shown l'.globalSink = a'.output)
    (hhere : saved scopes = (a'.hidden.filter fun e => e.1 = t).map Prod.snd)
    (hthere : ∀ t', t' ≠ t → (a'.hidden.filter fun e => e.1 = t') =
      a.hidden.filter fun e => e.1 = t')
    (hemitted : l'.emitted = l.emitted ∧ a'.emitted = a.emitted) : Directs l' a' where
  toCarries := h'
  current := hcurrent
  hidden t' := by
    rw [hscopes]
    by_cases ht : t' = t
    · subst ht
      rw [Function.update_self, hhere]
    · rw [Function.update_of_ne ht, hthere t' ht, h.hidden t']
  outputs := by rw [hemitted.1, hemitted.2, h.outputs]

theorem Directs.openSink (h : Directs l a) (t : τ) (sink : Option σ) :
    Directs (l.step (.openSink t sink)) (a.step (.openSink t sink)) := by
  obtain ⟨-, hscopes, -, hemitted⟩ := setSink_rest l (sink.map Sink.client)
  refine h.changes t (h.toCarries.openSink t sink)
    (congrArg (fun f => Function.update f t _) hscopes) ?_ ?_ (fun t' ht => ?_) ⟨hemitted, rfl⟩
  · exact (shown_setSink l _).trans (shown_client sink)
  · show saved (.sink l.globalSink :: (l.setSink (sink.map Sink.client)).2.scopes t) =
      (((t, a.output) :: a.hidden).filter fun e => e.1 = t).map Prod.snd
    rw [hscopes, saved, h.current, h.hidden t, List.filter_cons_of_pos (by simp)]
    rfl
  · exact List.filter_cons_of_neg (by simpa using Ne.symm ht)

theorem Directs.leave (h : Directs l a) (t : τ) (hnested : a.Nested (.leave t)) :
    Directs (l.step (.leave t)) (a.step (.leave t)) := by
  have h' := h.toCarries.leave t
  have hholds := h.scopes t
  have hhidden := h.hidden t
  rw [Lexical.Nested] at hnested
  rw [step, Logger.leave, Lexical.step] at h' ⊢
  generalize hscopes : l.scopes t = scopes at hholds h' hhidden
  generalize hblocks : a.blocks t = blocks at hholds h' hnested
  cases hholds with
  | nil => exact h
  | context field rest =>
    obtain ⟨hsink, hemitted⟩ := destroy_context_rest l t (contexts _).length
    exact h.changes t h' rfl ((congrArg shown hsink).trans h.current) hhidden (fun _ _ => rfl)
      ⟨hemitted, rfl⟩
  | sink previous rest =>
    have hhead : a.hidden.head?.map Prod.fst = some t := hnested
    obtain ⟨-, -, -, hemitted⟩ := setSink_rest l previous
    cases hlist : a.hidden with
    | nil => rw [hlist] at hhead; exact nomatch hhead
    | cons e more =>
      rw [hlist] at hhead hhidden
      have he : e.1 = t := Option.some.inj hhead
      rw [List.filter_cons_of_pos (by simpa using he), List.map_cons, saved] at hhidden
      obtain ⟨hprevious, hrest⟩ := List.cons.inj hhidden
      dsimp only at h' ⊢
      rw [hlist] at h'
      refine h.changes t h' rfl ?_ hrest (fun t' ht => ?_) ⟨hemitted, rfl⟩
      · exact (shown_setSink l previous).trans hprevious
      · rw [hlist, List.filter_cons_of_neg (by rw [he]; simpa using Ne.symm ht)]
        rfl

theorem Directs.log (h : Directs l a) (t : τ) (level : Level) (message : String)
    (location : String × Nat) (fields : List (Field δ)) :
    Directs (l.step (.log t level message location fields))
      (a.step (.log t level message location fields)) := by
  have h' := h.toCarries.log t level message location fields
  have hentry := h.entry_eq t level message location fields
  rw [step, Lexical.step] at h' ⊢
  set record := l.withContext t (withFields (makeRecord level message location) fields)
  have hlevel : record.level = level := congrArg Entry.level hentry
  obtain ⟨-, hscopes, -⟩ := emit_rest l record
  obtain ⟨s, hs, hafter, hemitted⟩ := emit_emitted l record
  rw [hlevel, h.level] at hemitted
  have hcurrent : shown (l.emit record).globalSink = a.output :=
    hafter.trans (hs.trans h.current)
  split
  · next hlow =>
    rw [if_pos hlow] at hemitted h'
    exact ⟨h', hcurrent, fun t' => by rw [hscopes]; exact h.hidden t',
      by rw [hemitted]; exact h.outputs⟩
  · next hhigh =>
    rw [if_neg hhigh] at hemitted h'
    refine ⟨h', hcurrent, fun t' => by rw [hscopes]; exact h.hidden t', ?_⟩
    rw [hemitted, List.map_append, h.outputs, List.map_singleton, hentry, hs, h.current]

theorem Directs.step (h : Directs l a) (action : Action τ σ δ) (hnested : a.Nested action) :
    Directs (l.step action) (a.step action) := by
  have h' := h.toCarries.step action
  cases action with
  | openSink t sink => exact h.openSink t sink
  | openContext t field =>
    exact h.changes t h' rfl h.current (h.hidden t) (fun _ _ => rfl) ⟨rfl, rfl⟩
  | leave t => exact h.leave t hnested
  | setSink sink =>
    obtain ⟨-, hscopes, -, hemitted⟩ := setSink_rest l (sink.map Sink.client)
    refine ⟨h', (shown_setSink l _).trans (shown_client sink), fun t => ?_, ?_⟩
    · exact (congrArg (fun f => saved (f t)) hscopes).trans (h.hidden t)
    · exact (congrArg _ hemitted).trans h.outputs
  | setLevel level => exact ⟨h', h.current, h.hidden, h.outputs⟩
  | log t level message location fields => exact h.log t level message location fields

theorem Directs.new : Directs ({} : Logger τ σ δ) {} where
  level := rfl
  scopes _ := .nil
  stack _ := rfl
  records := rfl
  current := rfl
  hidden _ := rfl
  outputs := rfl

/-- In every run of any number of threads, the records are those that the blocks say, with the
    fields of the blocks of their own thread. They go where the blocks say when every thread that
    ends a redirection ends the one that began last. -/
theorem after_lexical (actions : List (Action τ σ δ)) :
    (run step ({} : Logger τ σ δ) actions).emitted.map (fun e => e.2.entry) =
        (run Lexical.step {} actions).emitted.map Prod.snd ∧
      (StepsMeet Lexical.step Lexical.Nested {} actions →
        (run step ({} : Logger τ σ δ) actions).emitted.map
            (fun e => (e.1.output, e.2.entry)) = (run Lexical.step {} actions).emitted) := by
  constructor
  · have h : Carries (run step ({} : Logger τ σ δ) actions) (run Lexical.step {} actions) := by
      induction actions using List.reverseRecOn with
      | nil => exact Directs.new.toCarries
      | append_singleton actions action ih =>
        rw [run_snoc, run_snoc]
        exact ih.step action
    exact h.records
  · intro hok
    have h : Directs (run step ({} : Logger τ σ δ) actions) (run Lexical.step {} actions) := by
      induction actions using List.reverseRecOn with
      | nil => exact Directs.new
      | append_singleton actions action ih =>
        rw [run_snoc, run_snoc]
        exact (ih (hok.restrict (List.prefix_append actions [action]))).step action hok.last
    exact h.outputs

/-- Two threads, a redirection within another one, and a context that only one of them is in. -/
theorem after_lexical_nested :
    (run step ({} : Logger Nat String Nat) [.openSink 0 (some "file"),
      .openContext 1 ("user", .integer 7), .openSink 1 none, .log 1 .warn "late" ("a.cpp", 3) [],
      .leave 1, .log 0 .info "up" ("a.cpp", 9) [("port", .integer 80)]]).emitted.map
        (fun e => (e.1.output, e.2.entry)) =
      [(.stderr, Lexical.entry [.sink, .context ("user", .integer 7)] .warn "late" ("a.cpp", 3) []),
        (.client "file",
          Lexical.entry [.sink] .info "up" ("a.cpp", 9) [("port", .integer 80)])] :=
  (after_lexical [.openSink 0 (some "file"), .openContext 1 ("user", .integer 7), .openSink 1 none,
    .log 1 .warn "late" ("a.cpp", 3) [], .leave 1,
    .log 0 .info "up" ("a.cpp", 9) [("port", .integer 80)]]).2 (by decide)

end Threads

end Logger

end NeuroVerse.Core.Log
