/-
  The optimizer that follows the gradients it is told, `GradientOptimizer`.

  All methods lock, so that the calls of any number of threads come one after the other. Doubles
  are any type with the operations of the source, of which no law is used; `toInt` is the cast to
  a 64-bit integer, which the language leaves open for numbers out of its range. The momentum is
  allocated by the source and never read, the timestamp of an observation and `describe` are left
  out.

  A gradient optimizer adds each gradient to a buffer when it comes, and moves its parameters when
  it is asked for a proposal. `after_descends` says what this comes to: the gradients between two
  proposals are one batch, and each parameter by itself descends along the mean of its own
  components in every batch, one batch after the other. A gradient that is too short counts in the
  mean of a component it does not have.
-/
import NeuroVerse.Lib.Run
import NeuroVerse.Lib.Since

namespace NeuroVerse.Learn

open Lib

inductive ObservationValue (δ : Type*) where
  | integer (n : Int)
  | real (d : δ)
  | label (s : String)
  | vector (v : List Int)

structure Observation (δ : Type*) where
  key : String
  value : ObservationValue δ

inductive Kind where
  | setWorkerCount
  | setSchedulingQuantum
  | setPrefetchDistance
  | toggleFeature
deriving DecidableEq

structure Proposal where
  kind : Kind := .setWorkerCount
  featureName : String := ""
  integerValue : Int := 0
deriving DecidableEq

variable {δ : Type*}

/-! ## Gradient descent -/

structure ParamSpec where
  name : String := ""
  kind : Kind := .setWorkerCount

structure GradientOptimizer (δ : Type*) where
  lr : δ
  params : List δ
  spec : List ParamSpec
  gradBuf : List δ
  gradCount : Nat
  lastLoss : δ
  stepCount : Nat

inductive Op (δ : Type*) where
  | observe (o : Observation δ)
  | propose
  | apply (p : Proposal)

section

variable [Zero δ] [One δ] [Add δ] [Sub δ] [Mul δ] [Div δ] [IntCast δ]

namespace GradientOptimizer

/-- A specification of another length than the parameters is cut or filled up. -/
def make (lr : δ) (params : List δ) (spec : List ParamSpec) : GradientOptimizer δ where
  lr := lr
  params := params
  spec :=
    if params.length ≠ spec.length then
      spec.take params.length ++ List.replicate (params.length - spec.length) {}
    else spec
  gradBuf := List.replicate params.length 0
  gradCount := 0
  lastLoss := 0
  stepCount := 0

/-- Slot `i` of the buffer, with the component of the gradient `v` that belongs to it, if there
    is one. -/
def accumulate (v : List Int) (i : Nat) (b : δ) : δ :=
  match v[i]? with
  | none => b
  | some x => b + (x : δ)

def observe (g : GradientOptimizer δ) (o : Observation δ) : GradientOptimizer δ :=
  if o.key = "loss" then
    match o.value with
    | .real d => { g with lastLoss := d }
    | .integer n => { g with lastLoss := n }
    | _ => g
  else if o.key = "grad" then
    match o.value with
    | .vector v =>
      { g with
        gradBuf := g.gradBuf.mapIdx (accumulate v)
        gradCount := g.gradCount + 1 }
    | _ => g
  else g

/-- What a proposal says of the first parameter. -/
def proposal (toInt : δ → Int) (g : GradientOptimizer δ) : Proposal where
  kind := (g.spec.headD {}).kind
  integerValue := (g.params.head?.map toInt).getD 0

def descend (g : GradientOptimizer δ) : GradientOptimizer δ :=
  let inv : δ := 1 / ((g.gradCount : Int) : δ)
  { g with
    params := g.params.zipWith (fun p b => p - g.lr * (b * inv)) g.gradBuf
    gradBuf := g.gradBuf.map fun _ => 0
    gradCount := 0
    stepCount := g.stepCount + 1 }

/-- The method is `const`, and moves the parameters all the same. -/
def propose (toInt : δ → Int) (g : GradientOptimizer δ) : Proposal × GradientOptimizer δ :=
  if g.params.isEmpty then ({}, g)
  else if g.gradCount = 0 then (g.proposal toInt, g)
  else (g.descend.proposal toInt, g.descend)

def step (toInt : δ → Int) (g : GradientOptimizer δ) : Op δ → GradientOptimizer δ
  | .observe o => g.observe o
  | .propose => (g.propose toInt).2
  | .apply _ => { g with stepCount := g.stepCount + 1 }

end GradientOptimizer

end

/-! ## Batches -/

/-- The gradient that an operation brings. -/
def Op.gradient : Op δ → Option (List Int)
  | .observe ⟨key, .vector v⟩ => if key = "grad" then some v else none
  | _ => none

def Op.proposes : Op δ → Bool
  | .propose => true
  | _ => false

/-- The gradients since the last proposal. -/
def pending (ops : List (Op δ)) : List (List Int) :=
  (ops.reverse.takeWhile fun op => !op.proposes).reverse.filterMap Op.gradient

/-- The gradients of each proposal. -/
def batches (ops : List (Op δ)) : List (List (List Int)) :=
  yielded (fun pre op => if op.proposes then [pending pre] else []) [] ops

theorem pending_snoc (ops : List (Op δ)) (op : Op δ) :
    pending (ops ++ [op]) =
      if op.proposes then [] else pending ops ++ op.gradient.toList := by
  rw [pending, List.reverse_append, List.reverse_singleton, List.singleton_append,
    List.takeWhile_cons]
  cases hop : op.proposes with
  | true => rfl
  | false =>
    show ((op :: (ops.reverse.takeWhile fun op => !op.proposes)).reverse).filterMap Op.gradient = _
    rw [List.reverse_cons, List.filterMap_append]
    cases hg : op.gradient <;> simp [hg, pending]

theorem batches_snoc (ops : List (Op δ)) (op : Op δ) :
    batches (ops ++ [op]) = batches ops ++ if op.proposes then [pending ops] else [] := by
  rw [batches, yielded_snoc, List.nil_append]
  rfl

section

variable [Zero δ] [One δ] [Add δ] [Sub δ] [Mul δ] [Div δ] [IntCast δ]

/-- The sum of the components `i`, in the order of the gradients. -/
def total (i : Nat) (batch : List (List Int)) : δ :=
  batch.foldl (fun sum v => GradientOptimizer.accumulate v i sum) 0

/-- Parameter `i` after one batch: nothing moves without a gradient. -/
def descended (lr : δ) (i : Nat) (p : δ) (batch : List (List Int)) : δ :=
  if batch = [] then p else p - lr * (total i batch * (1 / ((batch.length : Int) : δ)))

omit [One δ] [Sub δ] [Mul δ] [Div δ] in
theorem total_snoc (i : Nat) (batch : List (List Int)) (v : List Int) :
    (total i (batch ++ [v]) : δ) = GradientOptimizer.accumulate v i (total i batch) := by
  rw [total, List.foldl_append]
  rfl

namespace GradientOptimizer

variable {lr : δ} {params : List δ} {spec : List ParamSpec} {ops : List (Op δ)}
  {g : GradientOptimizer δ}

omit [Zero δ] [One δ] [Sub δ] [Mul δ] [Div δ] in
/-- An observation counts when it brings a gradient. -/
theorem observe_gradient (g : GradientOptimizer δ) (o : Observation δ) :
    (g.observe o).lr = g.lr ∧ (g.observe o).params = g.params ∧ (g.observe o).spec = g.spec ∧
      match (Op.observe o).gradient with
      | none => (g.observe o).gradBuf = g.gradBuf ∧ (g.observe o).gradCount = g.gradCount
      | some v =>
        (g.observe o).gradBuf = g.gradBuf.mapIdx (accumulate v) ∧
          (g.observe o).gradCount = g.gradCount + 1 := by
  obtain ⟨key, value⟩ := o
  by_cases hloss : key = "loss"
  · subst hloss
    cases value <;> exact ⟨rfl, rfl, rfl, rfl, rfl⟩
  · by_cases hgrad : key = "grad"
    · subst hgrad
      cases value <;> exact ⟨rfl, rfl, rfl, rfl, rfl⟩
    · have hsame : g.observe ⟨key, value⟩ = g := by rw [observe, if_neg hloss, if_neg hgrad]
      have hnone : (Op.observe ⟨key, value⟩ : Op δ).gradient = none := by
        cases value with
        | vector v => exact if_neg hgrad
        | integer | real | label => rfl
      rw [hsame, hnone]
      exact ⟨rfl, rfl, rfl, rfl, rfl⟩

/-- What the state says of the run: the parameters of the batches, the buffer of the gradients
    that wait for the next proposal. -/
structure Inv (lr : δ) (params : List δ) (spec : List ParamSpec) (ops : List (Op δ))
    (g : GradientOptimizer δ) : Prop where
  rate : g.lr = lr
  place : g.params = params.mapIdx fun i p => (batches ops).foldl (descended lr i) p
  kinds : g.spec = (make lr params spec).spec
  waiting : g.gradBuf = params.mapIdx fun i _ => total i (pending ops)
  count : params ≠ [] → g.gradCount = (pending ops).length

theorem make_inv (lr : δ) (params : List δ) (spec : List ParamSpec) :
    Inv lr params spec [] (make lr params spec) where
  rate := rfl
  place := List.ext_getElem (by simp [make]) fun i _ _ => by simp [make, batches, yielded]
  kinds := rfl
  waiting := List.ext_getElem (by simp [make]) fun i _ _ => by simp [make, pending, total]
  count _ := rfl

theorem observe_inv (h : Inv lr params spec ops g) (o : Observation δ) :
    Inv lr params spec (ops ++ [.observe o]) (g.observe o) := by
  obtain ⟨hlr, hparams, hspec, hbuffer⟩ := observe_gradient g o
  have hbatches : batches (ops ++ [.observe o]) = batches ops := by
    rw [batches_snoc]
    exact List.append_nil _
  have hpending : pending (ops ++ [.observe o]) =
      pending ops ++ (Op.observe o).gradient.toList := by
    rw [pending_snoc]
    rfl
  cases hg : (Op.observe o).gradient with
  | none =>
    rw [hg] at hbuffer hpending
    rw [Option.toList_none, List.append_nil] at hpending
    exact ⟨hlr.trans h.rate, by rw [hparams, hbatches, h.place], hspec.trans h.kinds,
      by rw [hbuffer.1, hpending, h.waiting],
      fun hne => by rw [hbuffer.2, hpending, h.count hne]⟩
  | some v =>
    rw [hg] at hbuffer hpending
    refine ⟨hlr.trans h.rate, by rw [hparams, hbatches, h.place], hspec.trans h.kinds, ?_, ?_⟩
    · rw [hbuffer.1, h.waiting, hpending]
      refine List.ext_getElem (by simp) fun i _ _ => ?_
      simp only [List.getElem_mapIdx]
      exact (total_snoc i (pending ops) v).symm
    · intro hne
      rw [hbuffer.2, h.count hne, hpending, List.length_append]
      rfl

/-- A proposal turns the gradients that wait into a batch. -/
theorem propose_inv (toInt : δ → Int) (h : Inv lr params spec ops g) :
    Inv lr params spec (ops ++ [.propose]) (g.propose toInt).2 := by
  have hbatches : batches (ops ++ [.propose]) = batches ops ++ [pending ops] := batches_snoc _ _
  have hpending : pending (ops ++ [.propose]) = [] := pending_snoc _ _
  have hfold : ∀ (i : Nat) (p : δ), (batches (ops ++ [.propose])).foldl (descended lr i) p =
      descended lr i ((batches ops).foldl (descended lr i) p) (pending ops) := by
    intro i p
    rw [hbatches, List.foldl_append]
    rfl
  by_cases hempty : params = []
  · subst hempty
    have hnil : g.params = [] := h.place
    rw [propose, hnil]
    exact ⟨h.rate, hnil, h.kinds, h.waiting, fun hne => absurd rfl hne⟩
  · have hsome : g.params.isEmpty = false := by
      rw [h.place]
      cases params with
      | nil => exact absurd rfl hempty
      | cons p ps => simp
    rw [propose, hsome, if_neg Bool.false_ne_true]
    by_cases hcount : g.gradCount = 0
    · -- there is no gradient, and the batch is empty
      have hnone : pending ops = [] := by
        rw [← List.length_eq_zero_iff, ← h.count hempty]
        exact hcount
      rw [if_pos hcount]
      refine ⟨h.rate, ?_, h.kinds, ?_, fun _ => ?_⟩
      · rw [h.place]
        refine List.ext_getElem (by simp) fun i _ _ => ?_
        rw [List.getElem_mapIdx, List.getElem_mapIdx, hfold, hnone]
        exact (if_pos rfl).symm
      · rw [h.waiting, hnone, hpending]
      · rw [hpending]
        exact hcount
    · have hbatch : pending ops ≠ [] := by
        intro hnil
        rw [h.count hempty, hnil] at hcount
        exact hcount rfl
      rw [if_neg hcount]
      refine ⟨h.rate, ?_, h.kinds, ?_, fun _ => ?_⟩
      · refine List.ext_getElem (by simp [descend, h.place, h.waiting]) fun i _ _ => ?_
        rw [List.getElem_mapIdx, hfold, descended, if_neg hbatch]
        simp only [descend, List.getElem_zipWith, h.place, h.waiting, List.getElem_mapIdx, h.rate,
          h.count hempty]
      · rw [hpending]
        refine List.ext_getElem (by simp [descend, h.waiting]) fun i _ _ => ?_
        simp [descend, total]
      · rw [hpending]
        rfl

theorem step_inv (toInt : δ → Int) (h : Inv lr params spec ops g) (op : Op δ) :
    Inv lr params spec (ops ++ [op]) (g.step toInt op) := by
  cases op with
  | observe o => exact observe_inv h o
  | propose => exact propose_inv toInt h
  | apply p =>
    have hbatches : batches (ops ++ [.apply p]) = batches ops := by
      rw [batches_snoc]
      exact List.append_nil _
    have hpending : pending (ops ++ [.apply p]) = pending ops := by
      rw [pending_snoc]
      exact List.append_nil _
    refine ⟨h.rate, ?_, h.kinds, ?_, ?_⟩
    · rw [hbatches]
      exact h.place
    · rw [hpending]
      exact h.waiting
    · rw [hpending]
      exact h.count

theorem run_inv (toInt : δ → Int) (lr : δ) (params : List δ) (spec : List ParamSpec)
    (ops : List (Op δ)) :
    Inv lr params spec ops (run (step toInt) (make lr params spec) ops) := by
  induction ops using List.reverseRecOn with
  | nil => exact make_inv lr params spec
  | append_singleton ops op ih =>
    rw [run_snoc]
    exact step_inv toInt ih op

omit [Add δ] in
theorem propose_eq (toInt : δ → Int) (g : GradientOptimizer δ) :
    (g.propose toInt).1 =
      if g.params.isEmpty then {} else (g.propose toInt).2.proposal toInt := by
  unfold propose
  split
  · rfl
  · split <;> rfl

/-- After any run, each parameter is what the batches make of it one after the other, each batch
    by the mean of that parameter's own components; and a proposal made now says where the first
    parameter is with the gradients since the last one taken as a batch. -/
theorem after_descends (toInt : δ → Int) (lr : δ) (params : List δ) (spec : List ParamSpec)
    (ops : List (Op δ)) :
    let g := run (step toInt) (make lr params spec) ops
    (g.params = params.mapIdx fun i p => (batches ops).foldl (descended lr i) p) ∧
      (g.propose toInt).1 =
        match params with
        | [] => {}
        | p :: _ => {
          kind := (spec.headD {}).kind
          integerValue := toInt ((batches ops ++ [pending ops]).foldl (descended lr 0) p) } := by
  have h := run_inv toInt lr params spec ops
  refine ⟨h.place, ?_⟩
  have h' := propose_inv toInt h
  rw [propose_eq, h.place]
  cases params with
  | nil => rfl
  | cons p ps =>
    have hkinds : ((make lr (p :: ps) spec).spec.headD {}).kind = (spec.headD {}).kind := by
      cases spec with
      | nil => rfl
      | cons s ss =>
        unfold make
        dsimp only
        split <;> rfl
    rw [List.mapIdx_cons, List.isEmpty_cons, if_neg Bool.false_ne_true, proposal, h'.kinds,
      h'.place, hkinds, batches_snoc, List.mapIdx_cons, List.head?_cons]
    rfl

end GradientOptimizer

end

end NeuroVerse.Learn
