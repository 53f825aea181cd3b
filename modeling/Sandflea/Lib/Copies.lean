import Sandflea.Lib.Paint

/-!
# Copies between buffers

A load and a store copy four bytes, and so do two stores of the same word. A program that copies a buffer in many
small pieces sets each byte that some piece covers, and if the pieces agree on the bytes, their order and number do
not matter (`foldl_overwrite`). Pieces that depend on each other are done one group at a time (`foldl_establish`).
-/

/-- If each step establishes a property of its own and keeps those of the others, all of them hold in the end. -/
theorem foldl_establish {S I : Type*} {step : S → I → S} (Q : I → S → Prop) {is : List I}
    (hset : ∀ i ∈ is, ∀ s, Q i (step s i)) (hkeep : ∀ i ∈ is, ∀ j ∈ is, i ≠ j → ∀ s, Q i s → Q i (step s j)) (s : S) :
    ∀ i ∈ is, Q i (is.foldl step s) := by
  induction is generalizing s with
  | nil => exact fun _ h => absurd h List.not_mem_nil
  | cons k is ih =>
    have hrest := ih (fun i hi => hset i (List.mem_cons_of_mem k hi))
      (fun i hi j hj => hkeep i (List.mem_cons_of_mem k hi) j (List.mem_cons_of_mem k hj))
    intro i hi
    by_cases hmem : i ∈ is
    · exact hrest (step s k) i hmem
    · obtain rfl : i = k := (List.mem_cons.mp hi).resolve_right hmem
      -- no later step is the same one
      suffices ∀ js : List I, (∀ j ∈ js, j ∈ is) → ∀ s, Q i s → Q i (js.foldl step s) from
        this is (fun _ => id) _ (hset i hi s)
      intro js hjs
      induction js with
      | nil => exact fun _ h => h
      | cons j js ihj =>
        intro s hs
        have hj := hjs j List.mem_cons_self
        refine ihj (fun j' hj' => hjs j' (List.mem_cons_of_mem j hj')) _ ?_
        exact hkeep i hi j (List.mem_cons_of_mem i hj) (fun heq => hmem (heq ▸ hj)) s hs

/-- What no step changes is as before in the end. -/
theorem foldl_keep {S I A : Type*} {step : S → I → S} {f : S → A} {is : List I}
    (hkeep : ∀ i ∈ is, ∀ s, f (step s i) = f s) (s : S) : f (is.foldl step s) = f s := by
  induction is generalizing s with
  | nil => rfl
  | cons i is ih =>
    rw [List.foldl_cons, ih fun j hj => hkeep j (List.mem_cons_of_mem i hj), hkeep i List.mem_cons_self]

/-- A loop that does two turns at once -/
theorem flatMap_range_pairs {A : Type*} (f : ℕ → A) (n : ℕ) :
    (List.range n).flatMap (fun i => [f (2 * i), f (2 * i + 1)]) = (List.range (2 * n)).map f := by
  induction n with
  | zero => rfl
  | succ n ih =>
    rw [List.range_succ, List.flatMap_append, ih, Nat.mul_succ, List.range_succ, List.range_succ, List.append_assoc,
      List.map_append]
    rfl

namespace Bytes

/-- Copy `n` bytes inside a buffer one after the other, the first one first. -/
def copyForward (b : Bytes) (o s n : ℕ) : Bytes :=
  (List.range n).foldl (fun b (i : ℕ) => Function.update b (o + i) (b (s + i))) b

/-- A copy to behind what is copied reads nothing that it wrote. -/
theorem copyForward_eq {b : Bytes} {o s n : ℕ} (h : s + n ≤ o) : copyForward b o s n = copyInto b o b s n := by
  induction n with
  | zero =>
    funext i
    rw [copyInto_of_not_mem (by omega)]
    rfl
  | succ n ih =>
    unfold copyForward at ih ⊢
    rw [List.range_succ, List.foldl_append, ih (by omega)]
    funext i
    rw [List.foldl_cons, List.foldl_nil, copyInto_of_not_mem (by omega)]
    by_cases hi : i = o + n
    · subst hi
      rw [Function.update_self, copyInto_of_mem (by omega) (by omega), Nat.add_sub_cancel_left]
    · rw [Function.update_of_ne hi]
      by_cases hin : o ≤ i ∧ i < o + n
      · rw [copyInto_of_mem hin.1 hin.2, copyInto_of_mem hin.1 (by omega)]
      · rw [copyInto_of_not_mem hin, copyInto_of_not_mem (by omega)]

/-- A load and a store copy four bytes. -/
theorem putU32_u32At (b c : Bytes) (o s i : ℕ) :
    putU32 b o (u32At c s) i = if o ≤ i ∧ i < o + 4 then c (s + (i - o)) else b i := by
  have h0 := (c s).toNat_lt
  have h1 := (c (s + 1)).toNat_lt
  have h2 := (c (s + 2)).toNat_lt
  have h3 := (c (s + 3)).toNat_lt
  have hbyte : ∀ (v : ℕ) (x : UInt8), v % 256 = x.toNat → UInt8.ofNat v = x := by
    intro v x hv
    apply UInt8.toNat_inj.mp
    rw [UInt8.toNat_ofNat', hv]
  by_cases hin : o ≤ i ∧ i < o + 4
  · rw [if_pos hin]
    obtain ⟨k, rfl⟩ : ∃ k, i = o + k := ⟨i - o, by omega⟩
    have hk : k < 4 := by omega
    rw [Nat.add_sub_cancel_left]
    unfold putU32 putU16 u32At u16At
    rw [show s + 2 + 1 = s + 3 from rfl]
    interval_cases k
    · rw [if_neg (by omega), if_neg (by omega), if_pos (by omega)]
      refine hbyte _ (c s) ?_
      omega
    · rw [if_neg (by omega), if_neg (by omega), if_neg (by omega), if_pos (by omega)]
      refine hbyte _ _ ?_
      omega
    · rw [if_pos (by omega)]
      refine hbyte _ _ ?_
      omega
    · rw [if_neg (by omega), if_pos (by omega)]
      refine hbyte _ _ ?_
      omega
  · rw [if_neg hin, putU32_of_ne (by omega)]

/-- A load and a store of the word twice copy the four bytes twice. -/
theorem putU64_u32At (b c : Bytes) (o s i : ℕ) :
    putU64 b o (u32At c s <<< 32 ||| u32At c s) i = if o ≤ i ∧ i < o + 8 then c (s + (i - o) % 4) else b i := by
  rw [putU64_twice (u32At_lt c s), putU32_u32At, putU32_u32At]
  by_cases hhigh : o + 4 ≤ i ∧ i < o + 4 + 4
  · rw [if_pos hhigh, if_pos (by omega)]
    congr 2
    omega
  · rw [if_neg hhigh]
    by_cases hlow : o ≤ i ∧ i < o + 4
    · rw [if_pos hlow, if_pos (by omega)]
      congr 2
      omega
    · rw [if_neg hlow, if_neg (by omega)]

/-- Pieces that agree on what a byte is to be set it exactly if one of them covers it. -/
theorem foldl_overwrite {Op : Type*} {exec : Bytes → Op → Bytes} (covers : Op → Prop) [DecidablePred covers]
    {ops : List Op} {i : ℕ} {v : UInt8} (h : ∀ op ∈ ops, ∀ b, exec b op i = if covers op then v else b i) (b : Bytes) :
    ops.foldl exec b i = if ∃ op ∈ ops, covers op then v else b i := by
  induction ops generalizing b with
  | nil => simp
  | cons op ops ih =>
    rw [List.foldl_cons, ih fun op' hop' => h op' (List.mem_cons_of_mem op hop')]
    by_cases hrest : ∃ op ∈ ops, covers op
    · obtain ⟨op', hop', hcovers⟩ := hrest
      rw [if_pos ⟨op', hop', hcovers⟩, if_pos ⟨op', List.mem_cons_of_mem op hop', hcovers⟩]
    · rw [if_neg hrest, h op List.mem_cons_self]
      refine if_congr ?_ rfl rfl
      constructor
      · exact fun hop => ⟨op, List.mem_cons_self, hop⟩
      · rintro ⟨op', hop', hcovers⟩
        rcases List.mem_cons.mp hop' with rfl | hmem
        · exact hcovers
        · exact absurd ⟨op', hmem, hcovers⟩ hrest

end Bytes
