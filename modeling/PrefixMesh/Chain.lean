import Mathlib.Algebra.Ring.Int.Defs
import Mathlib.Data.List.Nodup
import PrefixMesh.Block
import PrefixMesh.Lib.HashChain

/-! Content addressing. A prompt is cut into blocks of tokens, and the id of a block is
the hash of the id before it and of its tokens; the first one follows on the hash of the
model id and the block size. `sha` stands for SHA-256. Model ids are Go strings, that is
arbitrary bytes. -/

namespace PrefixMesh.Chain

def putUint32 (t : UInt32) : List UInt8 := [(t >>> 24).toUInt8, (t >>> 16).toUInt8, (t >>> 8).toUInt8, t.toUInt8]

/-- What `Root` hashes; the block size is converted to `uint32`. -/
def rootInput (modelID : List UInt8) (blockSize : Int) : List UInt8 :=
  modelID ++ putUint32 (UInt32.ofNat (blockSize % 2 ^ 32).toNat)

def nextInput (parent : BlockID) (tokens : List UInt32) : List UInt8 := parent.1 ++ tokens.flatMap putUint32

def chunkLoop (tokens : List UInt32) (blockSize : Nat) : Nat → Nat → List (List UInt32)
  | 0, _ => []
  | fuel + 1, start =>
      if start < tokens.length then
        ((tokens.take (min (start + blockSize) tokens.length)).drop start) ::
          chunkLoop tokens blockSize fuel (start + blockSize)
      else []

/-- A block size that is not positive panics. The loop moves forward by at least one token. -/
def chunk (tokens : List UInt32) (blockSize : Int) : Option (List (List UInt32)) :=
  if blockSize ≤ 0 then none else some (chunkLoop tokens blockSize.toNat tokens.length 0)

section Build

variable (sha : List UInt8 → BlockID)

def root (modelID : List UInt8) (blockSize : Int) : BlockID := sha (rootInput modelID blockSize)

def next (parent : BlockID) (tokens : List UInt32) : BlockID := sha (nextInput parent tokens)

def build (modelID : List UInt8) (blockSize : Int) (tokens : List UInt32) : Option (List BlockID) :=
  (chunk tokens blockSize).map (Lib.chainFrom (next sha) (root sha modelID blockSize))

def inputsFrom (parent : BlockID) : List (List UInt32) → List (List UInt8)
  | [] => []
  | block :: rest => nextInput parent block :: inputsFrom (next sha parent block) rest

def hashed (modelID : List UInt8) (blockSize : Int) (tokens : List UInt32) : List (List UInt8) :=
  rootInput modelID blockSize :: inputsFrom sha (root sha modelID blockSize) ((chunk tokens blockSize).getD [])

def NoCollision (inputs : List (List UInt8)) : Prop := ∀ x ∈ inputs, ∀ y ∈ inputs, sha x = sha y → x = y

instance (inputs : List (List UInt8)) : Decidable (NoCollision sha inputs) :=
  inferInstanceAs (Decidable (∀ x ∈ inputs, ∀ y ∈ inputs, sha x = sha y → x = y))

end Build

section Encoding

theorem length_putUint32 (t : UInt32) : (putUint32 t).length = 4 := rfl

private theorem putUint32_toNat (t : UInt32) : (putUint32 t).map UInt8.toNat =
    [t.toNat / 2 ^ 24 % 256, t.toNat / 2 ^ 16 % 256, t.toNat / 2 ^ 8 % 256, t.toNat % 256] := by
  simp [putUint32, Nat.shiftRight_eq_div_pow]

theorem putUint32_injective : Function.Injective putUint32 := by
  intro s t same
  have bytes := congrArg (List.map UInt8.toNat) same
  rw [putUint32_toNat, putUint32_toNat] at bytes
  simp only [List.cons.injEq, and_true] at bytes
  have small := s.toNat_lt
  have small' := t.toNat_lt
  apply UInt32.toNat_inj.mp
  omega

theorem exists_putUint32 (l : List UInt8) (length : l.length = 4) : ∃ t, putUint32 t = l := by
  obtain ⟨a, b, c, d, rfl⟩ : ∃ a b c d, l = [a, b, c, d] := by
    match l, length with
    | [a, b, c, d], _ => exact ⟨a, b, c, d, rfl⟩
  have bounds := And.intro (And.intro a.toNat_lt b.toNat_lt) (And.intro c.toNat_lt d.toNat_lt)
  refine ⟨UInt32.ofNat (a.toNat * 2 ^ 24 + b.toNat * 2 ^ 16 + c.toNat * 2 ^ 8 + d.toNat), ?_⟩
  apply List.map_injective_iff.mpr (fun x y => UInt8.toNat_inj.mp)
  rw [putUint32_toNat, UInt32.toNat_ofNat_of_lt' (by simp only [UInt32.size]; omega)]
  simp only [List.map_cons, List.map_nil, List.cons.injEq, and_true]
  omega

theorem nextInput_injective (parent parent' : BlockID) (tokens tokens' : List UInt32)
    (same : nextInput parent tokens = nextInput parent' tokens') : parent = parent' ∧ tokens = tokens' := by
  obtain ⟨first, second⟩ := List.append_inj same (parent.2.trans parent'.2.symm)
  exact ⟨Subtype.ext first, Lib.encoded_injective length_putUint32 (by decide) putUint32_injective second⟩

theorem rootInput_injective (model model' : List UInt8) (size size' : Int) (low : 1 ≤ size) (high : size < 2 ^ 32)
    (low' : 1 ≤ size') (high' : size' < 2 ^ 32) (same : rootInput model size = rootInput model' size') :
    model = model' ∧ size = size' := by
  obtain ⟨first, second⟩ := List.append_inj' same rfl
  have numbers := congrArg UInt32.toNat (putUint32_injective second)
  rw [UInt32.toNat_ofNat_of_lt' (by simp only [UInt32.size]; omega),
    UInt32.toNat_ofNat_of_lt' (by simp only [UInt32.size]; omega)] at numbers
  exact ⟨first, by omega⟩

end Encoding

section Chunks

variable (tokens : List UInt32) (size : Nat)

def chunks : List (List UInt32) := chunkLoop tokens size tokens.length 0

private theorem chunkLoop_getElem? (positive : 0 < size) (fuel start i : Nat) (enough : tokens.length ≤ start + fuel) :
    (chunkLoop tokens size fuel start)[i]? =
      if start + i * size < tokens.length then some ((tokens.drop (start + i * size)).take size) else none := by
  induction fuel generalizing start i with
  | zero =>
    rw [if_neg (by omega)]
    rfl
  | succ fuel ih =>
    by_cases open_ : start < tokens.length
    · simp only [chunkLoop, if_pos open_]
      cases i with
      | zero =>
        rw [List.getElem?_cons_zero, Nat.zero_mul, Nat.add_zero, if_pos open_, List.drop_take]
        congr 1
        rcases Nat.le_total (start + size) tokens.length with inside | beyond
        · rw [Nat.min_eq_left inside, Nat.add_sub_cancel_left]
        · rw [Nat.min_eq_right beyond, List.take_of_length_le (by simp), List.take_of_length_le (by simp; omega)]
      | succ i =>
        rw [List.getElem?_cons_succ, ih (start + size) i (by omega)]
        have shift : start + size + i * size = start + (i + 1) * size := by rw [Nat.succ_mul]; omega
        rw [shift]
    · simp only [chunkLoop, if_neg open_]
      rw [if_neg (by omega)]
      rfl

theorem chunks_getElem? (positive : 0 < size) (i : Nat) : (chunks tokens size)[i]? =
    if i * size < tokens.length then some ((tokens.drop (i * size)).take size) else none := by
  have general := chunkLoop_getElem? tokens size positive tokens.length 0 i (by omega)
  rwa [Nat.zero_add] at general

theorem lt_length_chunks (positive : 0 < size) (i : Nat) :
    i < (chunks tokens size).length ↔ i * size < tokens.length := by
  rw [← not_iff_not, not_lt, ← List.getElem?_eq_none_iff, chunks_getElem? tokens size positive]
  split
  next inside => simpa using inside
  next outside => simpa using outside

theorem length_chunks (positive : 0 < size) :
    (chunks tokens size).length = (tokens.length + size - 1) / size := by
  apply Nat.le_antisymm
  · by_contra more
    have last := (lt_length_chunks tokens size positive ((tokens.length + size - 1) / size)).mp (by omega)
    have upper := Nat.lt_div_mul_add (a := tokens.length + size - 1) positive
    omega
  · by_contra less
    have beyond := mt (lt_length_chunks tokens size positive (chunks tokens size).length).mpr (lt_irrefl _)
    have lower := Nat.div_mul_le_self (tokens.length + size - 1) size
    have step := Nat.mul_le_mul_right size (Nat.succ_le_of_lt (not_le.mp less))
    rw [Nat.succ_mul] at step
    omega

theorem chunks_take (positive : 0 < size) (k : Nat) :
    chunks (tokens.take (k * size)) size = (chunks tokens size).take k := by
  apply List.ext_getElem?
  intro i
  rw [chunks_getElem? _ size positive, List.getElem?_take, chunks_getElem? _ size positive, List.length_take]
  by_cases early : i < k
  · have room := Nat.mul_le_mul_right size (Nat.succ_le_of_lt early)
    rw [Nat.succ_mul] at room
    rw [if_pos early]
    by_cases inside : i * size < tokens.length
    · rw [if_pos inside, if_pos (by omega), List.drop_take, List.take_take, Nat.min_eq_left (by omega)]
    · rw [if_neg inside, if_neg (by omega)]
  · have beyond := Nat.mul_le_mul_right size (not_lt.mp early)
    rw [if_neg early, if_neg (by omega)]

theorem chunks_append (positive : 0 < size) (block : List UInt32) (full : block.length = size) :
    chunks (block ++ tokens) size = block :: chunks tokens size := by
  apply List.ext_getElem?
  intro i
  rw [chunks_getElem? _ size positive, List.length_append, full]
  cases i with
  | zero => rw [if_pos (by omega), Nat.zero_mul, List.drop_zero, List.take_left' full, List.getElem?_cons_zero]
  | succ i =>
    rw [List.getElem?_cons_succ, chunks_getElem? _ size positive, Nat.succ_mul, Nat.add_comm (i * size),
      List.drop_append, List.drop_eq_nil_of_le (by omega), List.nil_append, full, Nat.add_sub_cancel_left]
    by_cases inside : i * size < tokens.length
    · rw [if_pos inside, if_pos (by omega)]
    · rw [if_neg inside, if_neg (by omega)]

theorem chunks_short (some_ : 0 < tokens.length) (short : tokens.length ≤ size) : chunks tokens size = [tokens] := by
  apply List.ext_getElem?
  intro i
  rw [chunks_getElem? _ size (by omega)]
  cases i with
  | zero => rw [Nat.zero_mul, if_pos some_, List.drop_zero, List.take_of_length_le short, List.getElem?_cons_zero]
  | succ i =>
    rw [Nat.succ_mul, if_neg (by omega)]
    rfl

private theorem chunkLoop_flatten (positive : 0 < size) (fuel start : Nat) (enough : tokens.length ≤ start + fuel) :
    (chunkLoop tokens size fuel start).flatten = tokens.drop start := by
  induction fuel generalizing start with
  | zero => rw [List.drop_eq_nil_of_le (by omega)]; rfl
  | succ fuel ih =>
    by_cases open_ : start < tokens.length
    · simp only [chunkLoop, if_pos open_, List.flatten_cons, ih (start + size) (by omega), List.drop_take]
      rcases Nat.le_total (start + size) tokens.length with inside | beyond
      · rw [Nat.min_eq_left inside, Nat.add_sub_cancel_left, ← List.drop_drop, List.take_append_drop]
      · rw [Nat.min_eq_right beyond, List.drop_eq_nil_of_le beyond, List.append_nil, List.take_of_length_le (by simp)]
    · simp only [chunkLoop, if_neg open_]
      rw [List.drop_eq_nil_of_le (by omega)]
      rfl

theorem flatten_chunks (positive : 0 < size) : (chunks tokens size).flatten = tokens := by
  have general := chunkLoop_flatten tokens size positive tokens.length 0 (by omega)
  rwa [List.drop_zero] at general

variable {size}

/-- Prompts have the same first `k` blocks if and only if they have the same first `k` blocks' tokens. -/
theorem chunks_take_eq_iff (positive : 0 < size) (tokens' : List UInt32) (k : Nat) :
    (chunks tokens size).take k = (chunks tokens' size).take k ↔
      tokens.take (k * size) = tokens'.take (k * size) := by
  rw [← chunks_take tokens size positive, ← chunks_take tokens' size positive]
  constructor
  · intro same
    have joined := congrArg List.flatten same
    rwa [flatten_chunks _ size positive, flatten_chunks _ size positive] at joined
  · intro same
    rw [same]

end Chunks

theorem chunk_eq (tokens : List UInt32) (size : Int) (low : 1 ≤ size) :
    chunk tokens size = some (chunks tokens size.toNat) := by
  rw [chunk, if_neg (by omega)]
  rfl

/-- Big-endian bytes of a number, to write digests down. -/
def sampleDigest (n : Nat) : BlockID :=
  ⟨(List.range hashSize).map fun i => UInt8.ofNat (n / 256 ^ (31 - i)), by rw [List.length_map, List.length_range]⟩

/-- The SHA-256 digests of the inputs of some small chains. The model ids are `m` and `n`, the block size is 1. -/
def sampleSha (input : List UInt8) : BlockID :=
  let m0 := sampleDigest 0x1b3b058d42560e992a5a59f14243bd205ffaaa043cdc8ac31fa75561a09779e1
  let m1 := sampleDigest 0xe265598f60e28327b57c9e9fce9b9868fb973fe1780202fcfba735b831e57d7f
  let n0 := sampleDigest 0x765e095a833f2a4ee1cdef9069a34bd669d6dab03a33ddb536cf45661d81dd70
  let n1 := sampleDigest 0x7d8d96178992e2dce380f5e5e1914294017b28ca7df5b4d1c82559c3e6a7970b
  if input = rootInput [109] 1 then m0
  else if input = nextInput m0 [5] then m1
  else if input = nextInput m1 [7] then
    sampleDigest 0x99fa045859bfb9646fff0b46bac028c116b6fdbc9d8036f23523b59f1d10ca1f
  else if input = nextInput m1 [8] then
    sampleDigest 0x2229ddc67f22bcafa1fb795bd6b6d4be424d1cbff9b4e8e668f5fc9977ffa1c3
  else if input = rootInput [110] 1 then n0
  else if input = nextInput n0 [5] then n1
  else if input = nextInput n1 [7] then
    sampleDigest 0x7bc165761ebd8a76210efac8c928519120355d5ab0ce74d1ed91210c5769943e
  else sampleDigest 0

section Identity

variable {sha : List UInt8 → BlockID}

theorem mem_inputsFrom (parent : BlockID) (blocks front : List (List UInt32)) (x : List UInt32)
    (initial : front ++ [x] <+: blocks) :
    nextInput (front.foldl (next sha) parent) x ∈ inputsFrom sha parent blocks := by
  induction front generalizing parent blocks with
  | nil =>
    obtain ⟨rest, rfl⟩ := initial
    exact List.mem_cons_self
  | cons b front ih =>
    obtain ⟨rest, rfl⟩ := initial
    exact List.mem_cons_of_mem _ (ih (next sha parent b) (front ++ [x] ++ rest) (List.prefix_append _ _))

theorem mem_hashed (model : List UInt8) (size : Int) (low : 1 ≤ size) (tokens : List UInt32)
    (front : List (List UInt32)) (x : List UInt32) (initial : front ++ [x] <+: chunks tokens size.toNat) :
    nextInput (front.foldl (next sha) (root sha model size)) x ∈ hashed sha model size tokens := by
  rw [hashed, chunk_eq tokens size low]
  exact List.mem_cons_of_mem _ (mem_inputsFrom _ _ _ _ initial)

variable {model model' : List UInt8} {size size' : Int} {tokens tokens' : List UInt32}

theorem NoCollision.symm
    (distinct : NoCollision sha (hashed sha model size tokens ++ hashed sha model' size' tokens')) :
    NoCollision sha (hashed sha model' size' tokens' ++ hashed sha model size tokens) := by
  intro x first y second
  exact distinct x (List.mem_append.mpr (List.mem_append.mp first).symm) y
    (List.mem_append.mpr (List.mem_append.mp second).symm)

theorem noCollision_of_nodup (keys : List (List UInt8)) (distinct : (keys.map sha).Nodup) (inputs : List (List UInt8))
    (inside : ∀ x ∈ inputs, x ∈ keys) : NoCollision sha inputs := by
  intro x first y second same
  exact List.inj_on_of_nodup_map distinct (inside x first) (inside y second) same

theorem NoCollision.apart (low : 1 ≤ size) (low' : 1 ≤ size')
    (distinct : NoCollision sha (hashed sha model size tokens ++ hashed sha model' size' tokens')) :
    Lib.Apart (next sha) (root sha model size) (root sha model' size') (chunks tokens size.toNat)
      (chunks tokens' size'.toNat) := by
  intro front x front' x' first second same
  apply nextInput_injective
  exact distinct _ (List.mem_append_left _ (mem_hashed model size low tokens front x first)) _
    (List.mem_append_right _ (mem_hashed model' size' low' tokens' front' x' second)) same

theorem NoCollision.roots (low : 1 ≤ size) (high : size < 2 ^ 32) (low' : 1 ≤ size') (high' : size' < 2 ^ 32)
    (distinct : NoCollision sha (hashed sha model size tokens ++ hashed sha model' size' tokens'))
    (same : root sha model size = root sha model' size') : model = model' ∧ size = size' := by
  apply rootInput_injective model model' size size' low high low' high'
  exact distinct _ (List.mem_append_left _ List.mem_cons_self) _ (List.mem_append_right _ List.mem_cons_self) same

theorem chunks_ne_nil (tokens : List UInt32) {size : Nat} (positive : 0 < size) :
    ∀ block ∈ chunks tokens size, block ≠ [] := by
  intro block member
  obtain ⟨i, found⟩ := List.mem_iff_getElem?.mp member
  rw [chunks_getElem? tokens size positive] at found
  split at found
  next inside =>
    cases found
    intro empty
    have length := congrArg List.length empty
    rw [List.length_take, List.length_drop, List.length_nil] at length
    omega
  next => cases found

/-- Chains of one model meet only in a common prefix, if the model id is too short for the input of its root to be
that of a block. -/
theorem NoCollision.meet (low : 1 ≤ size) (short : model.length < hashSize)
    (distinct : NoCollision sha (hashed sha model size tokens ++ hashed sha model size tokens'))
    {xs ys : List (List UInt32)} (first : xs <+: chunks tokens size.toNat) (second : ys <+: chunks tokens' size.toNat)
    (shorter : ys.length ≤ xs.length)
    (same : xs.foldl (next sha) (root sha model size) = ys.foldl (next sha) (root sha model size)) : xs = ys := by
  obtain ⟨front, rfl, start⟩ := (distinct.apart low low).meet xs ys first second shorter same
  cases front using List.reverseRecOn with
  | nil => rfl
  | append_singleton front x =>
    have initial : front ++ [x] <+: chunks tokens size.toNat := (List.prefix_append _ _).trans first
    rw [List.foldl_append] at start
    have input := distinct _ (List.mem_append_left _ (mem_hashed model size low tokens front x initial)) _
      (List.mem_append_right _ List.mem_cons_self) start
    have lengths := congrArg List.length input
    rw [nextInput, rootInput, List.length_append, List.length_append,
      (front.foldl (next sha) (root sha model size)).2, length_putUint32, List.length_flatMap] at lengths
    have filled := chunks_ne_nil tokens (by omega) x (initial.subset (by simp))
    have some_ := List.length_pos_of_ne_nil filled
    have bytes : (x.map fun t => (putUint32 t).length).sum = 4 * x.length := by
      simp [length_putUint32, Nat.mul_comm]
    omega

/-- `Build` gives an id to every block, and the ids at a place of two chains are equal if and only if the models,
the block sizes and the tokens up to the end of that block are. -/
theorem build_identifies_prefix (sha : List UInt8 → BlockID) (model model' : List UInt8) (size size' : Int)
    (tokens tokens' : List UInt32) (low : 1 ≤ size) (high : size < 2 ^ 32) (low' : 1 ≤ size') (high' : size' < 2 ^ 32)
    (distinct : NoCollision sha (hashed sha model size tokens ++ hashed sha model' size' tokens')) :
    ∃ ids ids', build sha model size tokens = some ids ∧ build sha model' size' tokens' = some ids' ∧
      ids.length = (tokens.length + size.toNat - 1) / size.toNat ∧
      ids'.length = (tokens'.length + size'.toNat - 1) / size'.toNat ∧
      ∀ (i : Nat) (a b : BlockID), ids[i]? = some a → ids'[i]? = some b →
        (a = b ↔ model = model' ∧ size = size' ∧
          tokens.take ((i + 1) * size.toNat) = tokens'.take ((i + 1) * size.toNat)) := by
  refine ⟨_, _, by rw [build, chunk_eq tokens size low]; rfl, by rw [build, chunk_eq tokens' size' low']; rfl,
    ?_, ?_, ?_⟩
  · rw [Lib.length_chainFrom, length_chunks _ _ (by omega)]
  · rw [Lib.length_chainFrom, length_chunks _ _ (by omega)]
  intro i a b first second
  obtain ⟨inside, rfl⟩ := Lib.chainFrom_eq_some _ first
  obtain ⟨inside', rfl⟩ := Lib.chainFrom_eq_some _ second
  constructor
  · intro same
    obtain ⟨front, whole, start⟩ := (distinct.apart low low').meet _ _ (List.take_prefix _ _) (List.take_prefix _ _)
      (by rw [List.length_take, List.length_take]; omega) same
    -- both are `i + 1` blocks long, so the one chain has not started before the other
    have alone : front = [] := by
      have lengths := congrArg List.length whole
      rw [List.length_append, List.length_take, List.length_take] at lengths
      exact List.length_eq_zero_iff.mp (by omega)
    subst alone
    obtain ⟨rfl, rfl⟩ := distinct.roots low high low' high' start
    exact ⟨rfl, rfl, (chunks_take_eq_iff tokens (by omega) tokens' (i + 1)).mp whole⟩
  · rintro ⟨rfl, rfl, same⟩
    rw [(chunks_take_eq_iff tokens (by omega) tokens' (i + 1)).mpr same]

/-- Two prompts that differ in their second token. -/
theorem sampleSha_prefix :
    ∃ ids ids', build sampleSha [109] 1 [5, 7] = some ids ∧ build sampleSha [109] 1 [5, 8] = some ids' ∧
      ids.length = 2 ∧ ∀ (i : Nat) (a b : BlockID), ids[i]? = some a → ids'[i]? = some b → (a = b ↔ i = 0) := by
  obtain ⟨ids, ids', built, built', length, _, same⟩ := build_identifies_prefix sampleSha [109] [109] 1 1 [5, 7] [5, 8]
    (by decide) (by decide) (by decide) (by decide) (by decide +kernel)
  have two : ids.length = 2 := length
  refine ⟨ids, ids', built, built', two, ?_⟩
  intro i a b first second
  have inside : i < 2 := two ▸ (List.getElem?_eq_some_iff.mp first).1
  rw [same i a b first second]
  match i, inside with
  | 0, _ => decide
  | 1, _ => decide

/-- The root of a chain is the id of a block of another one, and the chain goes on with the block after it. -/
def Spliced (sha : List UInt8 → BlockID) (model : List UInt8) (size : Int) (tokens : List UInt32)
    (model' : List UInt8) (size' : Int) (tokens' : List UInt32) : Prop :=
  ∃ front x y, front ++ [x, y] <+: chunks tokens size.toNat ∧ (chunks tokens' size'.toNat).head? = some y ∧
    rootInput model' size' = nextInput (front.foldl (next sha) (root sha model size)) x

/-- `Build` returns for both, and no id is in both chains. -/
def Unrelated (sha : List UInt8 → BlockID) (model : List UInt8) (size : Int) (tokens : List UInt32)
    (model' : List UInt8) (size' : Int) (tokens' : List UInt32) : Prop :=
  ∃ ids ids', build sha model size tokens = some ids ∧ build sha model' size' tokens' = some ids' ∧
    ∀ (i j : Nat) (a b : BlockID), ids[i]? = some a → ids'[j]? = some b → a ≠ b

theorem unrelated_iff_mem (low : 1 ≤ size) (low' : 1 ≤ size') :
    Unrelated sha model size tokens model' size' tokens' ↔
      ∀ a ∈ Lib.chainFrom (next sha) (root sha model size) (chunks tokens size.toNat),
        a ∉ Lib.chainFrom (next sha) (root sha model' size') (chunks tokens' size'.toNat) := by
  simp only [Unrelated, build, chunk_eq tokens size low, chunk_eq tokens' size' low', Option.map_some,
    Option.some.injEq]
  constructor
  · rintro ⟨_, _, rfl, rfl, apart⟩ a first second
    obtain ⟨i, at_⟩ := List.mem_iff_getElem?.mp first
    obtain ⟨j, at'⟩ := List.mem_iff_getElem?.mp second
    exact apart i j a a at_ at' rfl
  · intro apart
    refine ⟨_, _, rfl, rfl, ?_⟩
    rintro i j a _ first second rfl
    exact apart a (List.mem_of_getElem? first) (List.mem_of_getElem? second)

theorem Unrelated.symm (low : 1 ≤ size) (low' : 1 ≤ size')
    (unrelated : Unrelated sha model size tokens model' size' tokens') :
    Unrelated sha model' size' tokens' model size tokens := by
  rw [unrelated_iff_mem low low'] at unrelated
  rw [unrelated_iff_mem low' low]
  exact fun a first second => unrelated a second first

theorem Spliced.related (low : 1 ≤ size) (low' : 1 ≤ size')
    (spliced : Spliced sha model size tokens model' size' tokens') :
    ¬Unrelated sha model size tokens model' size' tokens' := by
  obtain ⟨front, x, y, initial, first, input⟩ := spliced
  have start : (front ++ [x]).foldl (next sha) (root sha model size) = root sha model' size' := by
    rw [List.foldl_append]
    exact (congrArg sha input).symm
  rw [unrelated_iff_mem low low']
  intro apart
  refine apart (next sha (root sha model' size') y) ((Lib.mem_chainFrom _).mpr ⟨front ++ [x], y, ?_, ?_⟩)
    ((Lib.mem_chainFrom _).mpr ⟨[], y, ?_, rfl⟩)
  · rwa [List.append_assoc]
  · rw [List.foldl_append, start]
    rfl
  · obtain ⟨rest, whole⟩ := List.head?_eq_some_iff.mp first
    rw [whole]
    exact ⟨rest, rfl⟩

private theorem spliced_of_meet (low : 1 ≤ size) (high : size < 2 ^ 32) (low' : 1 ≤ size') (high' : size' < 2 ^ 32)
    (distinct : NoCollision sha (hashed sha model size tokens ++ hashed sha model' size' tokens'))
    (different : ¬(model = model' ∧ size = size')) (xs ys : List (List UInt32)) (y : List UInt32)
    (first : xs <+: chunks tokens size.toNat) (second : y :: ys <+: chunks tokens' size'.toNat)
    (shorter : (y :: ys).length ≤ xs.length)
    (same : xs.foldl (next sha) (root sha model size) = (y :: ys).foldl (next sha) (root sha model' size')) :
    Spliced sha model size tokens model' size' tokens' := by
  obtain ⟨front, rfl, start⟩ := (distinct.apart low low').meet xs (y :: ys) first second shorter same
  cases front using List.reverseRecOn with
  | nil => exact absurd (distinct.roots low high low' high' start) different
  | append_singleton front x =>
    refine ⟨front, x, y, ?_, ?_, ?_⟩
    · refine List.IsPrefix.trans ⟨ys, ?_⟩ first
      simp
    · obtain ⟨rest, whole⟩ := second
      rw [← whole]
      rfl
    · have earlier : front ++ [x] <+: chunks tokens size.toNat := (List.prefix_append _ _).trans first
      rw [List.foldl_append] at start
      exact (distinct _ (List.mem_append_left _ (mem_hashed model size low tokens front x earlier)) _
        (List.mem_append_right _ List.mem_cons_self) start).symm

theorem unrelated_iff_spliced (low : 1 ≤ size) (high : size < 2 ^ 32) (low' : 1 ≤ size') (high' : size' < 2 ^ 32)
    (distinct : NoCollision sha (hashed sha model size tokens ++ hashed sha model' size' tokens'))
    (different : ¬(model = model' ∧ size = size')) :
    Unrelated sha model size tokens model' size' tokens' ↔
      ¬Spliced sha model size tokens model' size' tokens' ∧ ¬Spliced sha model' size' tokens' model size tokens := by
  constructor
  · intro unrelated
    exact ⟨fun spliced => spliced.related low low' unrelated,
      fun spliced => spliced.related low' low (unrelated.symm low low')⟩
  · rintro ⟨here, there⟩
    rw [unrelated_iff_mem low low']
    intro a first second
    obtain ⟨front, x, initial, rfl⟩ := (Lib.mem_chainFrom _).mp first
    obtain ⟨front', x', initial', same⟩ := (Lib.mem_chainFrom _).mp second
    obtain ⟨y, ys, parts⟩ := List.exists_cons_of_ne_nil (l := front ++ [x]) (by simp)
    obtain ⟨y', ys', parts'⟩ := List.exists_cons_of_ne_nil (l := front' ++ [x']) (by simp)
    rw [parts] at initial same
    rw [parts'] at initial' same
    rcases Nat.le_total (y' :: ys').length (y :: ys).length with shorter | longer
    · exact here (spliced_of_meet low high low' high' distinct different _ ys' y' initial initial' shorter same)
    · exact there (spliced_of_meet low' high' low high distinct.symm (fun both => different ⟨both.1.symm, both.2.symm⟩)
        _ ys y initial' initial longer same.symm)

/-- The root of a chain can be read as the id of a block only if the model id is as long as an id and all tokens of
a full block but one. -/
theorem Spliced.length (low : 1 ≤ size) (spliced : Spliced sha model size tokens model' size' tokens') :
    model'.length = 28 + 4 * size.toNat := by
  obtain ⟨front, x, y, ⟨rest, whole⟩, _, input⟩ := spliced
  have positive : 0 < size.toNat := by omega
  -- a block that is followed by another one is full
  have full : x.length = size.toNat := by
    have at_ := chunks_getElem? tokens size.toNat positive front.length
    have after := (lt_length_chunks tokens size.toNat positive (front.length + 1)).mp (by rw [← whole]; simp)
    rw [Nat.succ_mul] at after
    rw [if_pos (by omega), ← whole] at at_
    have block : x = (tokens.drop (front.length * size.toNat)).take size.toNat := by simpa using at_
    rw [block, List.length_take, List.length_drop]
    omega
  have lengths := congrArg List.length input
  have id_ := (front.foldl (next sha) (root sha model size)).2
  simp only [rootInput, nextInput, List.length_append, length_putUint32, Lib.encoded_length length_putUint32, full,
    id_, hashSize] at lengths
  omega

end Identity

private theorem exists_other (a b : List UInt8) : ∃ x : BlockID, x.1 ≠ a ∧ x.1 ≠ b := by
  by_contra none_
  push Not at none_
  have zero := none_ ⟨List.replicate hashSize 0, List.length_replicate⟩
  have one := none_ ⟨List.replicate hashSize 1, List.length_replicate⟩
  have two := none_ ⟨List.replicate hashSize 2, List.length_replicate⟩
  by_cases first : List.replicate hashSize (0 : UInt8) = a
  · have second := one (by rw [← first]; decide)
    exact absurd ((two (by rw [← first]; decide)).trans second.symm) (by decide)
  · have other := zero first
    by_cases third : List.replicate hashSize (1 : UInt8) = a
    · exact absurd ((two (by rw [← third]; decide)).trans other.symm) (by decide)
    · exact absurd ((one third).trans other.symm) (by decide)

/-- For a model id of the right length there are prompts, and a hash without collisions on them, that splice it. -/
theorem exists_spliced (model model' : List UInt8) (size size' : Int) (low : 1 ≤ size) (high : size < 2 ^ 32)
    (low' : 1 ≤ size') (high' : size' < 2 ^ 32) (different : ¬(model = model' ∧ size = size'))
    (long : model'.length = 28 + 4 * size.toNat) :
    ∃ sha tokens tokens', NoCollision sha (hashed sha model size tokens ++ hashed sha model' size' tokens') ∧
      Spliced sha model size tokens model' size' tokens' := by
  -- the input of the second root, read as an id and a block
  obtain ⟨first, name⟩ : ∃ first : BlockID, first.1 = model'.take 32 :=
    ⟨⟨model'.take 32, by rw [List.length_take, hashSize]; omega⟩, rfl⟩
  obtain ⟨block, full, code⟩ := Lib.exists_encoded exists_putUint32 size.toNat
    (model'.drop 32 ++ putUint32 (UInt32.ofNat (size' % 2 ^ 32).toNat))
    (by rw [List.length_append, List.length_drop, length_putUint32]; omega)
  have input : rootInput model' size' = nextInput first block := by
    rw [rootInput, nextInput, code, name, ← List.append_assoc, List.take_append_drop]
  -- the first root hashes to that id; the other two inputs to something else
  obtain ⟨second, apart, odd⟩ := exists_other first.1 model
  obtain ⟨third, apart', apart''⟩ := exists_other first.1 second.1
  have roots : rootInput model' size' ≠ rootInput model size := fun same =>
    different (rootInput_injective model model' size size' low high low' high' same.symm)
  have later : nextInput second [7] ≠ rootInput model' size' := fun same =>
    apart (congrArg Subtype.val (nextInput_injective _ _ _ _ (same.trans input)).1)
  have later' : nextInput second [7] ≠ rootInput model size := fun same => odd (List.append_inj' same rfl).1
  let sha : List UInt8 → BlockID := fun z =>
    if z = rootInput model size then first else if z = rootInput model' size' then second else third
  have atRoot : sha (rootInput model size) = first := if_pos rfl
  have atRoot' : sha (rootInput model' size') = second := (if_neg roots).trans (if_pos rfl)
  have atLater : sha (nextInput second [7]) = third := (if_neg later').trans (if_neg later)
  have blocks : chunks (block ++ [7]) size.toNat = [block, [7]] := by
    rw [chunks_append [7] size.toNat (by omega) block full, chunks_short [7] _ (by decide) (by simp; omega)]
  have blocks' : chunks [7] size'.toNat = [[7]] := chunks_short [7] _ (by decide) (by simp; omega)
  refine ⟨sha, block ++ [7], [7], ?_, [], block, [7], ?_, ?_, ?_⟩
  · apply noCollision_of_nodup [rootInput model size, rootInput model' size', nextInput second [7]]
    · simp only [List.map_cons, List.map_nil, atRoot, atRoot', atLater, List.nodup_cons, List.mem_cons,
        List.not_mem_nil, or_false, not_or, List.nodup_nil, not_false_eq_true, and_true]
      exact ⟨⟨fun same => apart (congrArg Subtype.val same.symm), fun same => apart' (congrArg Subtype.val same.symm)⟩,
        fun same => apart'' (congrArg Subtype.val same.symm)⟩
    · simp [hashed, chunk_eq _ size low, chunk_eq _ size' low', blocks, blocks', inputsFrom, root, atRoot, next,
        ← input, atRoot']
  · rw [blocks]
    exact List.prefix_refl _
  · rw [blocks']
    rfl
  · rw [List.foldl_nil, root, atRoot, input]

/-- Chains of different models or block sizes have no id in common, whatever the prompts and whatever the hash, as
long as it has no collision on what is hashed: exactly if no model id is 28 bytes longer than a block of the other
chain is when written out. -/
theorem chains_unrelated_iff (model model' : List UInt8) (size size' : Int) (low : 1 ≤ size) (high : size < 2 ^ 32)
    (low' : 1 ≤ size') (high' : size' < 2 ^ 32) (different : ¬(model = model' ∧ size = size')) :
    (∀ sha tokens tokens', NoCollision sha (hashed sha model size tokens ++ hashed sha model' size' tokens') →
      Unrelated sha model size tokens model' size' tokens') ↔
    model'.length ≠ 28 + 4 * size.toNat ∧ model.length ≠ 28 + 4 * size'.toNat := by
  have different' : ¬(model' = model ∧ size' = size) := fun both => different ⟨both.1.symm, both.2.symm⟩
  constructor
  · intro unrelated
    constructor
    · intro long
      obtain ⟨sha, tokens, tokens', distinct, spliced⟩ :=
        exists_spliced model model' size size' low high low' high' different long
      exact spliced.related low low' (unrelated sha tokens tokens' distinct)
    · intro long
      obtain ⟨sha, tokens', tokens, distinct, spliced⟩ :=
        exists_spliced model' model size' size low' high' low high different' long
      exact spliced.related low' low ((unrelated sha tokens tokens' distinct.symm).symm low low')
  · rintro ⟨short, short'⟩ sha tokens tokens' distinct
    rw [unrelated_iff_spliced low high low' high' distinct different]
    exact ⟨fun spliced => short (spliced.length low), fun spliced => short' (spliced.length low')⟩

/-- Chains of two blocks for one prompt and the models `m` and `n`, whose ids are one byte long. -/
theorem sampleSha_unrelated :
    NoCollision sampleSha (hashed sampleSha [109] 1 [5, 7] ++ hashed sampleSha [110] 1 [5, 7]) ∧
    Unrelated sampleSha [109] 1 [5, 7] [110] 1 [5, 7] := by
  have distinct : NoCollision sampleSha (hashed sampleSha [109] 1 [5, 7] ++ hashed sampleSha [110] 1 [5, 7]) := by
    decide +kernel
  exact ⟨distinct, (chains_unrelated_iff [109] [110] 1 1 (by decide) (by decide) (by decide) (by decide)
    (by decide)).mpr (by decide) sampleSha [5, 7] [5, 7] distinct⟩

/-- The model id is the digest of the root of another chain, and the block size a token of it. -/
theorem sampleSha_splice : [109] ≠ (sampleSha (rootInput [109] 1)).1 ∧
    NoCollision sampleSha (hashed sampleSha [109] 1 [5, 7] ++
      hashed sampleSha (sampleSha (rootInput [109] 1)).1 5 [7]) ∧
    ((build sampleSha [109] 1 [5, 7]).bind fun ids => ids[1]?) =
      ((build sampleSha (sampleSha (rootInput [109] 1)).1 5 [7]).bind fun ids => ids[0]?) ∧
    ((build sampleSha [109] 1 [5, 7]).bind fun ids => ids[1]?).isSome = true := by
  decide +kernel

end PrefixMesh.Chain
