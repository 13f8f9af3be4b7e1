import Hypura.Rust.F64
import Hypura.Rust.Text

/-!
# Hypura.Model.TensorRole

Classification of tensors by name (`model/tensor_role.rs`).
-/

namespace Hypura

open Hypura.Rust

/-- Classification of a tensor's role in the model, derived from its name. -/
inductive TensorRole
  | embedding
  | attentionQuery
  | attentionKey
  | attentionValue
  | attentionOutput
  | ffnGate
  | ffnUp
  | ffnDown
  | moeRouter
  | moeExpert (expertId : Nat)
  /-- Fused expert tensor containing all experts in one tensor. -/
  | moeFusedExperts
  | norm
  | outputHead
  | other (name : String)
  deriving DecidableEq, Repr

/-- `is_fused_expert_tensor`: what follows `_exps.` is not a number. -/
def isFusedExpertTensor (name : String) : Bool :=
  match afterFirst name "_exps." with
  | some (c :: _) => !isAsciiDigit c
  | some [] => true
  | none => false

/-- `parse_expert_id`: the second numeric component (the first is the layer index). -/
def parseExpertId (name : String) : Option Nat :=
  ((split name '.').filterMap parseU32)[1]?

namespace TensorRole

/-- `TensorRole::from_name`. -/
def fromName (name : String) : TensorRole :=
  if contains name "token_embd" then embedding
  else if name = "output.weight" ∨ name = "lm_head.weight" then outputHead
  else if contains name "_norm" ∨ contains name ".norm" then norm
  else if contains name "ffn_gate_inp" ∨ contains name "ffn_gate_shexp" then moeRouter
  else if contains name "_exps." then
    if isFusedExpertTensor name then moeFusedExperts
    else moeExpert ((parseExpertId name).getD 0)
  else if contains name "attn_q" ∨ contains name "attn.q" then attentionQuery
  else if contains name "attn_k" ∨ contains name "attn.k" then attentionKey
  else if contains name "attn_v" ∨ contains name "attn.v" then attentionValue
  else if contains name "attn_output" ∨ contains name "attn.o" then attentionOutput
  else if contains name "ffn_gate" then ffnGate
  else if contains name "ffn_up" then ffnUp
  else if contains name "ffn_down" then ffnDown
  else other name

/-- The roles an expert selection touches only in part. -/
def isExpert : TensorRole → Bool
  | moeExpert _ => true
  | moeFusedExperts => true
  | _ => false

/-- `access_frequency`: whether this tensor is accessed every token (vs.
probabilistically for MoE experts). -/
def accessFrequency {F : Type} [F64 F] (role : TensorRole) (expertsPerToken totalExperts : Nat) : F :=
  if role.isExpert then
    if 0 < totalExperts then (expertsPerToken : F) / (totalExperts : F) else 1.0
  else 1.0

end TensorRole

end Hypura
