/-!
# Dice.Source.Twister

The generator MT19937 of 32 bit words.

* `Twister` : 624 words, and the number of the next one to be used;
* `Twister.ofSeed` : the classic filling from one word;
* `Twister.next` : one tempered word and the generator after it.
-/

namespace Dice

structure Twister where
  words : Array UInt32
  index : Nat

namespace Twister

def size : Nat := 624

/-- The distance of the word that is mixed in. -/
def shift : Nat := 397

/-- Each word is made of the one before and its number. -/
def ofSeed (seed : UInt32) : Twister :=
  let fill (state : Array UInt32 × UInt32) (i : Nat) : Array UInt32 × UInt32 :=
    let mixed : UInt32 := state.2 ^^^ (state.2 >>> 30)
    let word := (1812433253 : UInt32) * mixed + UInt32.ofNat (i + 1)
    (state.1.push word, word)
  ⟨((List.range (size - 1)).foldl fill (#[seed], seed)).1, size⟩

/-- The high bit of one word and the low bits of the next are mixed into a third. -/
def twistWord (high low far : UInt32) : UInt32 :=
  let y := (high &&& 0x80000000) ||| (low &&& 0x7fffffff)
  far ^^^ (y >>> 1) ^^^ (if y &&& 1 == 1 then 0x9908b0df else 0)

/-- All words are renewed in place, in order. -/
def twist (words : Array UInt32) : Array UInt32 :=
  let word (ws : Array UInt32) (i : Nat) : UInt32 := ws.getD (i % size) 0
  (List.range size).foldl
    (fun ws i => ws.setIfInBounds i (twistWord (word ws i) (word ws (i + 1)) (word ws (i + shift))))
    words

def temper (y : UInt32) : UInt32 :=
  let y := y ^^^ (y >>> 11)
  let y := y ^^^ ((y <<< 7) &&& 0x9d2c5680)
  let y := y ^^^ ((y <<< 15) &&& 0xefc60000)
  y ^^^ (y >>> 18)

def next (t : Twister) : UInt32 × Twister :=
  let t := if t.index < size then t else ⟨twist t.words, 0⟩
  (temper (t.words.getD t.index 0), { t with index := t.index + 1 })

/-- The number of different words. -/
def wordCount : Nat := 4294967296

/-- Two words, the high half first. -/
def nextPair (t : Twister) : Nat × Twister :=
  let (high, t) := t.next
  let (low, t) := t.next
  (high.toNat * wordCount + low.toNat, t)

/-- Tries until the masked word is in range. A try fails less than half of the time, and numpy goes on
without a bound. Here the tries run out, after 1001 of them in `upTo`, and then the remainder is
taken, which is in range as well. -/
def search (draw : Twister → Nat × Twister) (mask greatest : Nat) : Nat → Twister → Nat × Twister
  | tries, t =>
    let (word, t) := draw t
    let value := word &&& mask
    if value ≤ greatest then (value, t)
    else
      match tries with
      | 0 => (value % (greatest + 1), t)
      | tries + 1 => search draw mask greatest tries t

/-- A number from zero up to the greatest allowed. No word is used if zero is the only one. -/
def upTo (greatest : Nat) (t : Twister) : Nat × Twister :=
  let mask := Nat.pow 2 (greatest.log2 + 1) - 1
  if greatest = 0 then (0, t)
  else if greatest < wordCount then
    search (fun t => let (word, t) := t.next; (word.toNat, t)) mask greatest 1000 t
  else search nextPair mask greatest 1000 t

/-- Numbers found by trying are in range, whatever the words are. -/
theorem search_le (draw : Twister → Nat × Twister) (mask greatest tries : Nat) (t : Twister) :
    (search draw mask greatest tries t).1 ≤ greatest := by
  induction tries generalizing t with
  | zero =>
    unfold search
    simp only
    split
    · assumption
    · exact Nat.lt_succ_iff.mp (Nat.mod_lt _ (Nat.succ_pos _))
  | succ tries ih =>
    unfold search
    simp only
    split
    · assumption
    · exact ih _

theorem upTo_le (greatest : Nat) (t : Twister) : (upTo greatest t).1 ≤ greatest := by
  unfold upTo
  split
  · exact Nat.zero_le _
  · split <;> exact search_le _ _ _ _ _

end Twister

end Dice
