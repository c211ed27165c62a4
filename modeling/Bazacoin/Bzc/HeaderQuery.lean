import Bazacoin.Core.Types
import Bazacoin.Lib.Outcome

/-!
# Serving header queries (`bzc/handler.go`, `les/handler.go`)

A `GetBlockHeadersMsg` names an origin block, by hash or by number, an
amount, a skip and a direction. Both protocol handlers gather the origin and
then, again and again, the block `Skip + 1` further on: by number, the number
is moved; by hash towards the genesis block, `Skip + 1` parent links are
followed; by hash towards the head, the canonical block `Skip + 1` further is
taken if its ancestor `Skip + 1` back (`GetBlockHashesFromHash`) is the
current origin. The loop stops at the amount, at a size limit, at a missing
block, or (in `bzc`) at `MaxHeaderFetch`; `les` rejects an amount above
`MaxHeaderFetch` before it starts.

The two handlers are one loop (`gather`) with two parameters: whether the
fetch bound is in the loop condition, and the forward hash step. The `bzc`
step refuses a next number that wraps around `2^64`; the `les` step does not.
All arithmetic on the query is `uint64`, and the walk towards the genesis
block counts `int(Skip) + 1` steps, a sum that wraps as Go's `int` does.

Three consequences of the wrap-around are proved for every chain: the `les`
handler panics on a forward hash query with `Skip = 2^64 - 1`, where the
ancestor list it indexes is empty; and both handlers answer a backward hash
query with `Skip ≥ 2^63`, whose step count `int(Skip) + 1` is not positive,
with the origin header repeated up to the amount.
-/

namespace Bazacoin

namespace Bzc

open State Bazacoin.Types

/-- `hashOrNumber`: the origin of a query, by hash or, with the zero hash, by
number. -/
structure HashOrNumber where
  hash : Hash
  number : UInt64
  deriving DecidableEq, Repr

/-- `getBlockHeadersData`. -/
structure GetBlockHeadersData where
  origin : HashOrNumber
  amount : UInt64
  skip : UInt64
  reverse : Bool
  deriving DecidableEq, Repr

/-- The error replies of the handlers that the query loop can lead to. -/
inductive HandlerError
  /-- `errResp(ErrRequestRejected, "")` -/
  | requestRejected
  deriving DecidableEq, Repr

/-- The reads of the local chain the handlers make. -/
structure HeaderReader where
  /-- `GetHeaderByHash` -/
  getHeaderByHash : Hash → Option Header
  /-- `GetHeaderByNumber`, the canonical header of a number -/
  getHeaderByNumber : UInt64 → Option Header
  /-- `GetHeader(hash, number)` -/
  getHeader : Hash → UInt64 → Option Header

/-- `softResponseLimit`. -/
def softResponseLimit : Nat := 2 * 1024 * 1024

/-- `estHeaderRlpSize`. -/
def estHeaderRlpSize : Nat := 500

/-- `downloader.MaxHeaderFetch`, and the `MaxHeaderFetch` of `les`. -/
def MaxHeaderFetch : Nat := 192

/-- The largest allocation of the Go runtime on a 64-bit platform. -/
def maxAlloc : Nat := 2 ^ 48

/-- `int(x)` for a `uint64` on a 64-bit platform: the same bits read as a
signed number. -/
def toGoInt (x : UInt64) : Int := if x.toNat < 2 ^ 63 then x.toNat else x.toNat - 2 ^ 64

section

variable (chain : HeaderReader)

/-- The loop of `GetBlockHashesFromHash` from `header`, `k` iterations left:
the parent's hash is collected if the parent is found, and the loop stops
after the genesis block. -/
def collectParents : Nat → Header → List Hash → List Hash
  | 0, _, acc => acc
  | k + 1, header, acc =>
    match chain.getHeader header.parentHash (UInt64.ofNat header.number - 1) with
    | none => acc
    | some parent =>
      if parent.number = 0 then acc ++ [header.parentHash]
      else collectParents k parent (acc ++ [header.parentHash])

/-- `GetBlockHashesFromHash`: up to `max` hashes of the ancestors of the block
`hash`, nearest first. The slice is made with capacity `max`, which the
runtime refuses beyond `maxAlloc` bytes. -/
def GetBlockHashesFromHash (hash : Hash) (max : UInt64) : Outcome HandlerError (List Hash) :=
  match chain.getHeaderByHash hash with
  | none => .ok []
  | some header =>
    if 32 * max.toNat > maxAlloc then .panic "runtime error: makeslice: cap out of range"
    else .ok (collectParents chain max.toNat header [])

/-- Hash based traversal towards the genesis block: `count` steps from the
block `hash` at `number` to its parent. Gives the hash reached and whether a
block was missing. -/
def walkToParent : Nat → Hash → UInt64 → Hash × Bool
  | 0, hash, _ => (hash, false)
  | k + 1, hash, number =>
    match chain.getHeader hash number with
    | some header => walkToParent k header.parentHash (number - 1)
    | none => (hash, true)

variable (hash : Header → Hash)

/-- Hash based traversal towards the leaf block, at the canonical header
numbered `next`: it is the next origin if its ancestor `Skip + 1` blocks back
is the current one. -/
def forwardTo (next : UInt64) (query : GetBlockHeadersData) :
    Outcome HandlerError (GetBlockHeadersData × Bool) :=
  match chain.getHeaderByNumber next with
  | none => .ok (query, true)
  | some header =>
    (GetBlockHashesFromHash chain (hash header) (query.skip + 1)).bind fun hashes =>
      match hashes[query.skip.toNat]? with
      | none => .panic "runtime error: index out of range"
      | some ancestor =>
        if ancestor = query.origin.hash then .ok ({ query with origin.hash := hash header }, false)
        else .ok (query, true)

/-- The forward hash step of the `bzc` handler: a next number that wraps
around is a "skip overflow attack" and ends the query. -/
def forwardHashBzc (origin : Header) (query : GetBlockHeadersData) :
    Outcome HandlerError (GetBlockHeadersData × Bool) :=
  let current := UInt64.ofNat origin.number
  let next := current + query.skip + 1
  if next ≤ current then .ok (query, true) else forwardTo chain hash next query

/-- The forward hash step of the `les` handler. -/
def forwardHashLes (origin : Header) (query : GetBlockHeadersData) :
    Outcome HandlerError (GetBlockHeadersData × Bool) :=
  forwardTo chain hash (UInt64.ofNat origin.number + query.skip + 1) query

variable {hash}

/-- "Advance to the next header of the query" after `origin`: the query with
its origin moved, and whether an unknown block was met. The cases are the
`switch` of the source, in its order. -/
def advance (forwardHash : Header → GetBlockHeadersData → Outcome HandlerError (GetBlockHeadersData × Bool))
    (origin : Header) (query : GetBlockHeadersData) : Outcome HandlerError (GetBlockHeadersData × Bool) :=
  if query.origin.hash ≠ 0 ∧ query.reverse = true then
    -- `int(query.Skip)+1` wraps as `int` does: it is `int(query.Skip + 1)`
    let r := walkToParent chain (toGoInt (query.skip + 1)).toNat query.origin.hash (UInt64.ofNat origin.number)
    .ok ({ query with origin.hash := r.1 }, r.2)
  else if query.origin.hash ≠ 0 then forwardHash origin query
  else if query.reverse = true then
    if query.origin.number ≥ query.skip + 1 then
      .ok ({ query with origin.number := query.origin.number - (query.skip + 1) }, false)
    else .ok (query, true)
  else .ok ({ query with origin.number := query.origin.number + (query.skip + 1) }, false)

/-- The gathering loop with `fuel` iterations left, from the headers gathered
so far and their estimated size; `capped` adds `len(headers) < MaxHeaderFetch`
to the loop condition, as `bzc` has it. -/
def gather (capped : Bool)
    (forwardHash : Header → GetBlockHeadersData → Outcome HandlerError (GetBlockHeadersData × Bool))
    (hashMode : Bool) : Nat → GetBlockHeadersData → List Header → Nat → Outcome HandlerError (List Header)
  | 0, _, headers, _ => .ok headers
  | fuel + 1, query, headers, bytes =>
    if (headers.length : Int) < toGoInt query.amount ∧ bytes < softResponseLimit ∧
        (capped = true → headers.length < MaxHeaderFetch) then
      match (if hashMode then chain.getHeaderByHash query.origin.hash
          else chain.getHeaderByNumber query.origin.number) with
      | none => .ok headers
      | some origin =>
        (advance chain forwardHash origin query).bind fun r =>
          -- an unknown block ends the loop after this header
          if r.2 then .ok (headers ++ [origin])
          else gather capped forwardHash hashMode fuel r.1 (headers ++ [origin])
            (bytes + estHeaderRlpSize)
    else .ok headers

variable (hash)

/-- The `GetBlockHeadersMsg` case of the `bzc` handler, after decoding: the
headers it sends back. -/
def handleGetBlockHeadersMsgBzc (query : GetBlockHeadersData) : Outcome HandlerError (List Header) :=
  gather chain true (forwardHashBzc chain hash) (query.origin.hash != 0) MaxHeaderFetch query [] 0

/-- The `GetBlockHeadersMsg` case of the `les` handler, after decoding;
`admitted` is whether the flow control accepts the request's cost. -/
def handleGetBlockHeadersMsgLes (admitted : Bool) (query : GetBlockHeadersData) :
    Outcome HandlerError (List Header) :=
  if admitted = false ∨ query.amount.toNat > MaxHeaderFetch then .error .requestRejected
  else gather chain false (forwardHashLes chain hash) (query.origin.hash != 0) MaxHeaderFetch query [] 0

end

/-! ## The loop's arithmetic -/

theorem toGoInt_of_lt {x : UInt64} (h : x.toNat < 2 ^ 63) : toGoInt x = x.toNat := by
  rw [toGoInt, if_pos h]

/-- From a skip of `2^63 - 1` on, `int(Skip) + 1` is zero or a negative `int`:
the walk towards the genesis block takes no step. -/
theorem toGoInt_add_one_toNat {x : UInt64} (h : 2 ^ 63 - 1 ≤ x.toNat) : (toGoInt (x + 1)).toNat = 0 := by
  have hlt := x.toNat_lt
  have hsum : (x + 1).toNat = (x.toNat + 1) % 2 ^ 64 := by simp [UInt64.toNat_add]
  unfold toGoInt
  split
  case isTrue hsmall =>
    -- only `2^64 - 1` wraps to a non-negative `int`, zero
    rw [hsum] at hsmall ⊢
    omega
  case isFalse hbig =>
    rw [hsum] at hbig ⊢
    omega

/-- `x + (2^64 - 1) + 1` wraps around to `x`. -/
theorem add_max_add_one (x : UInt64) : x + 18446744073709551615 + 1 = x := by
  rw [UInt64.add_assoc]
  simp

/-- With capacity zero, `GetBlockHashesFromHash` finds no ancestor. -/
theorem GetBlockHashesFromHash_zero (chain : HeaderReader) (hash : Hash) :
    GetBlockHashesFromHash chain hash 0 = .ok [] := by
  unfold GetBlockHashesFromHash
  split
  · rfl
  · simp [maxAlloc, collectParents]

/-- Below the amount and `MaxHeaderFetch`, the loop goes on: the size limit
is far above `MaxHeaderFetch` headers. -/
theorem loop_continues {capped : Bool} {amount j : Nat} (hj : j < min amount MaxHeaderFetch) :
    (j : Int) < amount ∧ estHeaderRlpSize * j < softResponseLimit ∧ (capped = true → j < MaxHeaderFetch) := by
  simp only [estHeaderRlpSize, softResponseLimit, MaxHeaderFetch] at hj ⊢
  omega

/-- At the amount, or at `MaxHeaderFetch` in a loop that has the bound or an
amount below it, the loop stops. -/
theorem loop_stops {capped : Bool} {amount : Int} {j bytes : Nat}
    (hcap : capped = true ∨ amount ≤ MaxHeaderFetch) (hj : amount ≤ j ∨ MaxHeaderFetch ≤ j) :
    ¬ ((j : Int) < amount ∧ bytes < softResponseLimit ∧ (capped = true → j < MaxHeaderFetch)) := by
  rintro ⟨ha, -, hc⟩
  rcases hcap with hcap | hcap
  · have := hc hcap
    omega
  · omega

section

variable {chain : HeaderReader} {hash : Header → Hash}

/-! ## Backward hash queries with a skip of `2^63` or more -/

/-- A backward hash query whose skip is a negative `int` stays at its origin,
and meets no unknown block. -/
theorem advance_reverse_wrap
    {step : Header → GetBlockHeadersData → Outcome HandlerError (GetBlockHeadersData × Bool)}
    {origin : Header} {query : GetBlockHeadersData} (hmode : query.origin.hash ≠ 0)
    (hrev : query.reverse = true) (hskip : 2 ^ 63 ≤ query.skip.toNat) :
    advance chain step origin query = .ok (query, false) := by
  unfold advance
  rw [if_pos ⟨hmode, hrev⟩, toGoInt_add_one_toNat (by omega)]
  rfl

/-- Such a query gathers its origin again and again, up to the amount and,
where the loop has it, `MaxHeaderFetch`. The induction is on the fuel, with
`j` copies gathered so far. -/
theorem gather_reverse_wrap {capped : Bool}
    {step : Header → GetBlockHeadersData → Outcome HandlerError (GetBlockHeadersData × Bool)}
    {query : GetBlockHeadersData} {h : Header} (hmode : query.origin.hash ≠ 0)
    (hrev : query.reverse = true) (hskip : 2 ^ 63 ≤ query.skip.toNat)
    (hamount : query.amount.toNat < 2 ^ 63) (horigin : chain.getHeaderByHash query.origin.hash = some h)
    (hcap : capped = true ∨ query.amount.toNat ≤ MaxHeaderFetch) :
    ∀ fuel j, fuel + j = MaxHeaderFetch → j ≤ min query.amount.toNat MaxHeaderFetch →
      gather chain capped step true fuel query (List.replicate j h) (estHeaderRlpSize * j) =
        .ok (List.replicate (min query.amount.toNat MaxHeaderFetch) h) := by
  intro fuel
  induction fuel with
  | zero =>
    intro j hj hle
    have hmin : min query.amount.toNat MaxHeaderFetch = j := by omega
    rw [hmin]
    rfl
  | succ fuel ih =>
    intro j hj hle
    simp only [gather, ↓reduceIte, List.length_replicate, toGoInt_of_lt hamount]
    by_cases hmore : j < min query.amount.toNat MaxHeaderFetch
    · -- one more copy of the origin
      rw [if_pos (loop_continues hmore), horigin]
      simp only [advance_reverse_wrap hmode hrev hskip, Outcome.bind_ok, Bool.false_eq_true, ↓reduceIte]
      rw [← List.replicate_succ', show estHeaderRlpSize * j + estHeaderRlpSize =
        estHeaderRlpSize * (j + 1) by ring]
      exact ih (j + 1) (by omega) hmore
    · -- the amount or the bound is reached
      have hmin : min query.amount.toNat MaxHeaderFetch = j := by omega
      rw [if_neg (loop_stops (hcap.imp_right fun h => by exact_mod_cast h) (by omega)), hmin]

/-! ## Forward hash queries in `les` with a skip of `2^64 - 1` -/

/-- The `les` forward hash step with `Skip = 2^64 - 1` comes back to the
origin's own number, asks for no ancestor, and indexes the empty list. -/
theorem forwardHashLes_wrap_panics {origin h' : Header} {query : GetBlockHeadersData}
    (hskip : query.skip = 18446744073709551615)
    (hcanon : chain.getHeaderByNumber (UInt64.ofNat origin.number) = some h') :
    forwardHashLes chain hash origin query = .panic "runtime error: index out of range" := by
  unfold forwardHashLes forwardTo
  rw [hskip, add_max_add_one, hcanon]
  simp only [show (18446744073709551615 : UInt64) + 1 = 0 by decide, GetBlockHashesFromHash_zero,
    Outcome.bind_ok, List.getElem?_nil]

end

/-! ## Forward number queries without wrap-around -/

/-- The canonical headers numbered `n`, `n + step`, …, at most `k` of them and
up to the first number without one, over unbounded numbers. -/
def canonicalFrom (byNumber : Nat → Option Header) (step : Nat) : Nat → Nat → List Header
  | 0, _ => []
  | k + 1, n =>
    match byNumber n with
    | none => []
    | some h => h :: canonicalFrom byNumber step k (n + step)

/-- Moving a number that stays below `2^64` by `Skip + 1` is the sum on
naturals. -/
theorem toNat_add_skip {n s : UInt64} (h : n.toNat + (s.toNat + 1) < 2 ^ 64) :
    (n + (s + 1)).toNat = n.toNat + (s.toNat + 1) := by
  rw [UInt64.toNat_add, UInt64.toNat_add, UInt64.toNat_one]
  rw [Nat.mod_eq_of_lt (a := s.toNat + 1) (by omega), Nat.mod_eq_of_lt h]

/-- A forward number query gathers the canonical headers `Skip + 1` apart from
its origin, as long as their numbers stay below `2^64`. The induction is on
the fuel, with the headers gathered so far in `acc` and the origin moved to
`n`. -/
theorem gather_number_forward {capped : Bool}
    {step : Header → GetBlockHeadersData → Outcome HandlerError (GetBlockHeadersData × Bool)}
    {query : GetBlockHeadersData} (hmode : query.origin.hash = 0) (hrev : query.reverse = false)
    (hamount : query.amount.toNat < 2 ^ 63) (hcap : capped = true ∨ query.amount.toNat ≤ MaxHeaderFetch) :
    ∀ fuel (acc : List Header) (n : UInt64), fuel + acc.length = MaxHeaderFetch →
      acc.length ≤ min query.amount.toNat MaxHeaderFetch →
      n.toNat + (min query.amount.toNat MaxHeaderFetch - acc.length) * (query.skip.toNat + 1) < 2 ^ 64 →
      gather chain capped step false fuel { query with origin.number := n } acc
          (estHeaderRlpSize * acc.length) =
        .ok (acc ++ canonicalFrom (fun m => chain.getHeaderByNumber (UInt64.ofNat m))
          (query.skip.toNat + 1) (min query.amount.toNat MaxHeaderFetch - acc.length) n.toNat) := by
  intro fuel
  induction fuel with
  | zero =>
    intro acc n hfuel hle _
    rw [show min query.amount.toNat MaxHeaderFetch - acc.length = 0 by omega]
    simp [gather, canonicalFrom]
  | succ fuel ih =>
    intro acc n hfuel hle hwrap
    simp only [gather, toGoInt_of_lt hamount, Bool.false_eq_true, ↓reduceIte]
    by_cases hmore : acc.length < min query.amount.toNat MaxHeaderFetch
    · obtain ⟨k, hk⟩ : ∃ k, min query.amount.toNat MaxHeaderFetch - acc.length = k + 1 :=
        ⟨_, (Nat.succ_pred_eq_of_pos (by omega)).symm⟩
      rw [if_pos (loop_continues hmore), hk]
      simp only [canonicalFrom, UInt64.ofNat_toNat]
      cases hget : chain.getHeaderByNumber n with
      | none => simp
      | some h =>
        -- the origin moves `Skip + 1` on, below `2^64`
        rw [hk, Nat.succ_mul] at hwrap
        have hnext := toNat_add_skip (n := n) (s := query.skip) (by omega)
        have hadv : advance chain step h { query with origin.number := n } =
            .ok ({ query with origin.number := n + (query.skip + 1) }, false) := by
          unfold advance
          simp [hmode, hrev]
        simp only [hadv, Outcome.bind_ok, Bool.false_eq_true, ↓reduceIte]
        rw [show estHeaderRlpSize * acc.length + estHeaderRlpSize =
          estHeaderRlpSize * (acc ++ [h]).length by simp [Nat.mul_succ]]
        have hrest : min query.amount.toNat MaxHeaderFetch - (acc ++ [h]).length = k := by
          simp only [List.length_append, List.length_singleton]
          omega
        rw [ih (acc ++ [h]) _ (by simp; omega) (by simp; omega) (by rw [hrest, hnext]; omega), hrest,
          hnext, List.append_assoc, List.singleton_append]
    · rw [if_neg (loop_stops (hcap.imp_right fun h => by exact_mod_cast h) (by omega)),
        show min query.amount.toNat MaxHeaderFetch - acc.length = 0 by omega]
      simp [canonicalFrom]

/-! ## The handlers -/

section

variable {chain : HeaderReader} {hash : Header → Hash}

/-- The `bzc` handler repeats the origin of a backward hash query with a skip
of `2^63` or more. -/
theorem handleGetBlockHeadersMsgBzc_reverse_wrap {query : GetBlockHeadersData} {h : Header}
    (hmode : query.origin.hash ≠ 0) (hrev : query.reverse = true) (hskip : 2 ^ 63 ≤ query.skip.toNat)
    (hamount : query.amount.toNat < 2 ^ 63) (horigin : chain.getHeaderByHash query.origin.hash = some h) :
    handleGetBlockHeadersMsgBzc chain hash query =
      .ok (List.replicate (min query.amount.toNat MaxHeaderFetch) h) := by
  unfold handleGetBlockHeadersMsgBzc
  rw [show (query.origin.hash != 0) = true by simpa using hmode]
  exact gather_reverse_wrap hmode hrev hskip hamount horigin (.inl rfl) MaxHeaderFetch 0 rfl
    (Nat.zero_le _)

/-- The `les` handler repeats the origin of an admitted backward hash query
with a skip of `2^63` or more. -/
theorem handleGetBlockHeadersMsgLes_reverse_wrap {query : GetBlockHeadersData} {h : Header}
    (hmode : query.origin.hash ≠ 0) (hrev : query.reverse = true) (hskip : 2 ^ 63 ≤ query.skip.toNat)
    (hamount : query.amount.toNat ≤ MaxHeaderFetch)
    (horigin : chain.getHeaderByHash query.origin.hash = some h) :
    handleGetBlockHeadersMsgLes chain hash true query = .ok (List.replicate query.amount.toNat h) := by
  unfold handleGetBlockHeadersMsgLes
  rw [if_neg (by simp only [Bool.true_eq_false, false_or, not_lt]; exact hamount),
    show (query.origin.hash != 0) = true by simpa using hmode]
  have hrun : gather chain false (forwardHashLes chain hash) true MaxHeaderFetch query
      (List.replicate 0 h) (estHeaderRlpSize * 0) =
      .ok (List.replicate (min query.amount.toNat MaxHeaderFetch) h) :=
    gather_reverse_wrap hmode hrev hskip (by simp only [MaxHeaderFetch] at hamount; omega) horigin
      (.inr hamount) MaxHeaderFetch 0 rfl (Nat.zero_le _)
  rw [Nat.min_eq_left hamount] at hrun
  exact hrun

/-- The `les` handler panics on an admitted forward hash query with
`Skip = 2^64 - 1` from a canonical origin. -/
theorem handleGetBlockHeadersMsgLes_forward_wrap_panics {query : GetBlockHeadersData} {h h' : Header}
    (hmode : query.origin.hash ≠ 0) (hrev : query.reverse = false)
    (hskip : query.skip = 18446744073709551615) (hamount : 1 ≤ query.amount.toNat)
    (hfetch : query.amount.toNat ≤ MaxHeaderFetch)
    (horigin : chain.getHeaderByHash query.origin.hash = some h)
    (hcanon : chain.getHeaderByNumber (UInt64.ofNat h.number) = some h') :
    handleGetBlockHeadersMsgLes chain hash true query = .panic "runtime error: index out of range" := by
  have hadv : advance chain (forwardHashLes chain hash) h query =
      .panic "runtime error: index out of range" := by
    unfold advance
    rw [if_neg (by simp [hrev]), if_pos hmode]
    exact forwardHashLes_wrap_panics hskip hcanon
  have hcond : ((([] : List Header).length : Int) < toGoInt query.amount ∧ 0 < softResponseLimit ∧
      (false = true → ([] : List Header).length < MaxHeaderFetch)) := by
    have := toGoInt_of_lt (x := query.amount) (by simp only [MaxHeaderFetch] at hfetch; omega)
    simp only [List.length_nil, Nat.cast_zero, this, softResponseLimit, Bool.false_eq_true,
      false_implies, and_true]
    omega
  unfold handleGetBlockHeadersMsgLes
  rw [if_neg (by simp only [Bool.true_eq_false, false_or, not_lt]; exact hfetch),
    show (query.origin.hash != 0) = true by simpa using hmode,
    show MaxHeaderFetch = 191 + 1 from rfl, gather.eq_2, if_pos hcond]
  simp only [↓reduceIte, horigin, hadv, Outcome.bind_panic]

/-- Without wrap-around, the `bzc` handler answers a forward number query with
the canonical headers `Skip + 1` apart from the origin, up to the amount,
`MaxHeaderFetch` and the first missing number. -/
theorem handleGetBlockHeadersMsgBzc_number_forward {query : GetBlockHeadersData}
    (hmode : query.origin.hash = 0) (hrev : query.reverse = false) (hamount : query.amount.toNat < 2 ^ 63)
    (hwrap : query.origin.number.toNat + min query.amount.toNat MaxHeaderFetch * (query.skip.toNat + 1) <
      2 ^ 64) :
    handleGetBlockHeadersMsgBzc chain hash query =
      .ok (canonicalFrom (fun m => chain.getHeaderByNumber (UInt64.ofNat m)) (query.skip.toNat + 1)
        (min query.amount.toNat MaxHeaderFetch) query.origin.number.toNat) := by
  unfold handleGetBlockHeadersMsgBzc
  rw [show (query.origin.hash != 0) = false by simp [hmode]]
  exact gather_number_forward hmode hrev hamount (.inl rfl) MaxHeaderFetch [] query.origin.number rfl
    (Nat.zero_le _) hwrap

/-- Without wrap-around, the `les` handler answers an admitted forward number
query with the canonical headers `Skip + 1` apart from the origin, up to the
amount and the first missing number. -/
theorem handleGetBlockHeadersMsgLes_number_forward {query : GetBlockHeadersData}
    (hmode : query.origin.hash = 0) (hrev : query.reverse = false)
    (hamount : query.amount.toNat ≤ MaxHeaderFetch)
    (hwrap : query.origin.number.toNat + query.amount.toNat * (query.skip.toNat + 1) < 2 ^ 64) :
    handleGetBlockHeadersMsgLes chain hash true query =
      .ok (canonicalFrom (fun m => chain.getHeaderByNumber (UInt64.ofNat m)) (query.skip.toNat + 1)
        query.amount.toNat query.origin.number.toNat) := by
  unfold handleGetBlockHeadersMsgLes
  rw [if_neg (by simp only [Bool.true_eq_false, false_or, not_lt]; exact hamount),
    show (query.origin.hash != 0) = false by simp [hmode]]
  have hrun : gather chain false (forwardHashLes chain hash) false MaxHeaderFetch
      { query with origin.number := query.origin.number } [] (estHeaderRlpSize * ([] : List Header).length) =
      .ok ([] ++ canonicalFrom (fun m => chain.getHeaderByNumber (UInt64.ofNat m)) (query.skip.toNat + 1)
        (min query.amount.toNat MaxHeaderFetch - ([] : List Header).length) query.origin.number.toNat) :=
    gather_number_forward hmode hrev (by simp only [MaxHeaderFetch] at hamount; omega) (.inr hamount)
      MaxHeaderFetch [] query.origin.number rfl (Nat.zero_le _) (by rw [Nat.min_eq_left hamount]; exact hwrap)
  rw [Nat.min_eq_left hamount] at hrun
  exact hrun

/-- On every chain, from every origin known by a non-zero hash whose number
has a canonical header: the `les` handler panics on a forward query with
`Skip = 2^64 - 1`, and both handlers answer a backward query with a skip of
`2^63` or more with the origin header `Amount` times. -/
theorem getBlockHeaders_skip_wraps (chain : HeaderReader) (hash : Header → Hash) {o : Hash}
    {h h' : Header} (ho : o ≠ 0) (horigin : chain.getHeaderByHash o = some h)
    (hcanon : chain.getHeaderByNumber (UInt64.ofNat h.number) = some h') {amount skip : UInt64}
    (hamount : 1 ≤ amount.toNat) (hfetch : amount.toNat ≤ MaxHeaderFetch) (hskip : 2 ^ 63 ≤ skip.toNat) :
    handleGetBlockHeadersMsgLes chain hash true ⟨⟨o, 0⟩, amount, 18446744073709551615, false⟩ =
      .panic "runtime error: index out of range" ∧
    handleGetBlockHeadersMsgBzc chain hash ⟨⟨o, 0⟩, amount, skip, true⟩ =
      .ok (List.replicate amount.toNat h) ∧
    handleGetBlockHeadersMsgLes chain hash true ⟨⟨o, 0⟩, amount, skip, true⟩ =
      .ok (List.replicate amount.toNat h) := by
  have hlt : amount.toNat < 2 ^ 63 := by
    simp only [MaxHeaderFetch] at hfetch
    omega
  refine ⟨handleGetBlockHeadersMsgLes_forward_wrap_panics ho rfl rfl hamount hfetch horigin hcanon,
    ?_, handleGetBlockHeadersMsgLes_reverse_wrap ho rfl hskip hfetch horigin⟩
  rw [handleGetBlockHeadersMsgBzc_reverse_wrap ho rfl hskip hlt horigin, Nat.min_eq_left hfetch]

end

/-- The genesis block, with the hash `1` by its time. -/
def genesisHeader : Header := ⟨0, 0, 1, 0, 5120000, 0, 1, [], 0⟩

/-- A chain of the genesis block alone. -/
def genesisChain : HeaderReader where
  getHeaderByHash x := if x = 1 then some genesisHeader else none
  getHeaderByNumber n := if n = 0 then some genesisHeader else none
  getHeader x n := if x = 1 ∧ n = 0 then some genesisHeader else none

/-- On the genesis chain: `les` panics on a forward query for two headers with
`Skip = 2^64 - 1`, and both handlers answer a backward query for two headers
with `Skip = 2^63` with the genesis header twice. -/
theorem getBlockHeaders_skip_wraps_genesis :
    ((1 : Hash) ≠ 0 ∧ genesisChain.getHeaderByHash 1 = some genesisHeader ∧
      genesisChain.getHeaderByNumber (UInt64.ofNat genesisHeader.number) = some genesisHeader ∧
      1 ≤ (2 : UInt64).toNat ∧ (2 : UInt64).toNat ≤ MaxHeaderFetch ∧
      2 ^ 63 ≤ (9223372036854775808 : UInt64).toNat) ∧
    handleGetBlockHeadersMsgLes genesisChain (fun h => BitVec.ofNat 256 h.time) true
        ⟨⟨1, 0⟩, 2, 18446744073709551615, false⟩ = .panic "runtime error: index out of range" ∧
    handleGetBlockHeadersMsgBzc genesisChain (fun h => BitVec.ofNat 256 h.time)
        ⟨⟨1, 0⟩, 2, 9223372036854775808, true⟩ = .ok (List.replicate (2 : UInt64).toNat genesisHeader) ∧
    handleGetBlockHeadersMsgLes genesisChain (fun h => BitVec.ofNat 256 h.time) true
        ⟨⟨1, 0⟩, 2, 9223372036854775808, true⟩ = .ok (List.replicate (2 : UInt64).toNat genesisHeader) :=
  ⟨⟨by decide, rfl, rfl, by decide, by decide, by decide⟩,
    getBlockHeaders_skip_wraps genesisChain (fun h => BitVec.ofNat 256 h.time) (by decide) rfl rfl
      (by decide) (by decide) (by decide)⟩

/-- A chain whose canonical headers are numbered 0, 1 and 2, each timed by
its number. -/
def numberedChain : HeaderReader where
  getHeaderByHash _ := none
  getHeaderByNumber n := if n < 3 then some { genesisHeader with number := n.toNat, time := n.toNat } else none
  getHeader _ _ := none

/-- A forward query for three headers from number 0 with `Skip = 1`: `bzc`
answers blocks 0 and 2, and stops at the missing block 4. -/
theorem handleGetBlockHeadersMsgBzc_number_forward_skip_one :
    ((0 : Hash) = 0 ∧ (3 : UInt64).toNat < 2 ^ 63 ∧
      (0 : UInt64).toNat + min (3 : UInt64).toNat MaxHeaderFetch * ((1 : UInt64).toNat + 1) < 2 ^ 64) ∧
    handleGetBlockHeadersMsgBzc numberedChain (fun h => BitVec.ofNat 256 h.time) ⟨⟨0, 0⟩, 3, 1, false⟩ =
      .ok (canonicalFrom (fun m => numberedChain.getHeaderByNumber (UInt64.ofNat m)) 2 3 0) ∧
    canonicalFrom (fun m => numberedChain.getHeaderByNumber (UInt64.ofNat m)) 2 3 0 =
      [{ genesisHeader with number := 0, time := 0 }, { genesisHeader with number := 2, time := 2 }] :=
  ⟨⟨rfl, by decide, by decide⟩,
    handleGetBlockHeadersMsgBzc_number_forward rfl rfl (by decide) (by decide), rfl⟩

/-- The same query to `les`, admitted: blocks 0 and 2. -/
theorem handleGetBlockHeadersMsgLes_number_forward_skip_one :
    ((0 : Hash) = 0 ∧ (3 : UInt64).toNat ≤ MaxHeaderFetch ∧
      (0 : UInt64).toNat + (3 : UInt64).toNat * ((1 : UInt64).toNat + 1) < 2 ^ 64) ∧
    handleGetBlockHeadersMsgLes numberedChain (fun h => BitVec.ofNat 256 h.time) true ⟨⟨0, 0⟩, 3, 1, false⟩ =
      .ok (canonicalFrom (fun m => numberedChain.getHeaderByNumber (UInt64.ofNat m)) 2 3 0) :=
  ⟨⟨rfl, by decide, by decide⟩, handleGetBlockHeadersMsgLes_number_forward rfl rfl (by decide) (by decide)⟩

end Bzc

end Bazacoin
