import Bazacoin.State.Object
import Mathlib.Data.List.AList
import Mathlib.Data.List.Sort

/-!
# Transaction lists (`core/tx_list.go`)

The transaction pool files each account's transactions in a `txList`: a map
from nonce to transaction with a heap of its nonces (`txSortedMap`), which
hands the transactions out in nonce order. Map and heap together hold a set
of transactions with distinct nonces; the model keeps that set as one list
sorted by nonce, so that the heap's top is the list's head and the highest
nonces are its end. The order is a field of the structure
(`TxSortedMap.sorted`), so every operation has to keep it.

The price index `txPricedList` is a heap of the pool's transactions ordered
by gas price and kept lazily: a removal from the pool only counts one more
stale entry, stale entries are thrown away when they come to the top, and the
heap is rebuilt from the pool once more than a quarter of it is stale. The
model keeps the heap's entries as a list sorted by price, whose head is the
heap's top; equal prices come out in insertion order, where the heap takes
them in the order of its array. The loops of `Cap`, `Underpriced` and
`Discard` pop the head, so they are structural over that list.

A transaction is what the pool reads of it: its hash, its sender as
`types.Sender` recovers it, its nonce, gas price, gas and value, its
recipient, its data and its encoded size. Times are nanoseconds, as Go's
`time.Duration`.
-/

namespace Bazacoin

namespace Core

open State

/-- What the pool reads of a `types.Transaction`. -/
structure Transaction where
  Hash : State.Hash
  /-- `types.Sender(signer, tx)`; `none` where the signature does not recover. -/
  From : Option Address
  Nonce : UInt64
  GasPrice : Nat
  Gas : Nat
  Value : Int
  To : Option Address
  Data : Bytes
  Size : Nat
  deriving DecidableEq, Repr

/-- `Transaction.Cost`: `GasPrice * Gas + Value`. -/
def Transaction.Cost (tx : Transaction) : Int := tx.GasPrice * tx.Gas + tx.Value

/-- The pool's `all` map from hash to transaction. -/
abbrev TxLookup := AList fun _ : State.Hash => Transaction

/-- The transaction is in the pool: its price entry is not stale. -/
def TxLookup.live (all : TxLookup) (tx : Transaction) : Bool := (all.lookup tx.Hash).isSome

/-- The transactions of the pool, in the map's order. -/
def TxLookup.txs (all : TxLookup) : List Transaction := all.entries.map Sigma.snd

/-- A transaction found under a hash is one of the pool's. -/
theorem TxLookup.mem_txs_of_lookup {all : TxLookup} {hash : State.Hash} {tx : Transaction}
    (h : all.lookup hash = some tx) : tx ∈ all.txs :=
  List.mem_map.mpr ⟨⟨hash, tx⟩, AList.mem_lookup_iff.mp h, rfl⟩

/-- An entry left by `AList.erase` is an entry of another key from before. -/
theorem mem_entries_erase {α : Type*} {β : α → Type*} [DecidableEq α] {s : AList β} {k : α}
    {e : Sigma β} (h : e ∈ (s.erase k).entries) : e.1 ≠ k ∧ e ∈ s.entries := by
  obtain ⟨a, b⟩ := e
  have hl : b ∈ (s.erase k).lookup a := AList.mem_lookup_iff.mpr h
  by_cases hk : a = k
  · subst hk
    rw [AList.lookup_erase] at hl
    exact absurd hl (Option.not_mem_none _)
  · rw [AList.lookup_erase_ne hk] at hl
    exact ⟨hk, AList.mem_lookup_iff.mp hl⟩

/-! ## `txSortedMap` -/

/-- Nonces strictly increase along the list. -/
def NonceSorted (l : List Transaction) : Prop := l.Pairwise fun a b => a.Nonce < b.Nonce

/-- `txSortedMap`: the transactions of the map `items` and the heap `index` of
their nonces, as one list sorted by nonce. The source's cache of the sorted
order is this list itself. -/
structure TxSortedMap where
  items : List Transaction
  sorted : NonceSorted items

/-- `newTxSortedMap`. -/
def newTxSortedMap : TxSortedMap := ⟨[], List.Pairwise.nil⟩

/-- Put `tx` in its place by nonce, over a transaction of the same nonce. -/
def putNonce (tx : Transaction) : List Transaction → List Transaction
  | [] => [tx]
  | a :: as =>
    if tx.Nonce < a.Nonce then tx :: a :: as
    else if tx.Nonce = a.Nonce then tx :: as
    else a :: putNonce tx as

theorem mem_putNonce {tx b : Transaction} :
    ∀ {l : List Transaction}, b ∈ putNonce tx l → b = tx ∨ b ∈ l
  | [], h => .inl (List.mem_singleton.mp h)
  | a :: as, h => by
    unfold putNonce at h
    split at h
    · exact List.mem_cons.mp h
    · split at h
      · rcases List.mem_cons.mp h with rfl | h
        · exact .inl rfl
        · exact .inr (List.mem_cons_of_mem a h)
      · rcases List.mem_cons.mp h with rfl | h
        · exact .inr List.mem_cons_self
        · rcases mem_putNonce h with rfl | h
          · exact .inl rfl
          · exact .inr (List.mem_cons_of_mem a h)

theorem nonceSorted_putNonce (tx : Transaction) :
    ∀ {l : List Transaction}, NonceSorted l → NonceSorted (putNonce tx l)
  | [], _ => List.pairwise_singleton _ tx
  | a :: as, h => by
    unfold NonceSorted at h ⊢
    rw [List.pairwise_cons] at h
    unfold putNonce
    split
    · next hlt =>
      refine List.Pairwise.cons ?_ (List.pairwise_cons.mpr h)
      intro b hb
      rcases List.mem_cons.mp hb with rfl | hb
      · exact hlt
      · exact UInt64.lt_trans hlt (h.1 b hb)
    · split
      · next heq =>
        refine List.Pairwise.cons ?_ h.2
        intro b hb
        rw [heq]
        exact h.1 b hb
      · next hge hne =>
        refine List.Pairwise.cons ?_ (nonceSorted_putNonce tx h.2)
        intro b hb
        rcases mem_putNonce hb with hbt | hb
        · have : ¬ tx.Nonce ≤ a.Nonce := fun hle => hne (UInt64.le_antisymm hle (UInt64.not_lt.mp hge))
          rw [hbt]
          exact UInt64.not_le.mp this
        · exact h.1 b hb

namespace TxSortedMap

/-- `txSortedMap.Get`. -/
def Get (m : TxSortedMap) (nonce : UInt64) : Option Transaction :=
  m.items.find? fun tx => tx.Nonce == nonce

/-- `txSortedMap.Put`: insert, over a transaction of the same nonce. -/
def Put (m : TxSortedMap) (tx : Transaction) : TxSortedMap :=
  ⟨putNonce tx m.items, nonceSorted_putNonce tx m.sorted⟩

/-- `txSortedMap.Forward`: remove the transactions below `threshold`, as the
heap pops them. -/
def Forward (m : TxSortedMap) (threshold : UInt64) : List Transaction × TxSortedMap :=
  (m.items.filter (fun tx => tx.Nonce < threshold),
    ⟨m.items.filter (fun tx => !decide (tx.Nonce < threshold)), m.sorted.filter _⟩)

/-- `txSortedMap.Filter`: remove the transactions that `filter` holds of. The
source collects them in the map's order; the model takes nonce order. -/
def Filter (m : TxSortedMap) (filter : Transaction → Bool) : List Transaction × TxSortedMap :=
  (m.items.filter filter, ⟨m.items.filter (fun tx => !filter tx), m.sorted.filter _⟩)

/-- `txSortedMap.Cap`: keep the `threshold` lowest nonces, and return the
others from the highest down. -/
def Cap (m : TxSortedMap) (threshold : Nat) : List Transaction × TxSortedMap :=
  if m.items.length ≤ threshold then ([], m)
  else ((m.items.drop threshold).reverse, ⟨m.items.take threshold, m.sorted.sublist (List.take_sublist _ _)⟩)

/-- `txSortedMap.Remove`: remove the transaction at `nonce`, if there is one. -/
def Remove (m : TxSortedMap) (nonce : UInt64) : Bool × TxSortedMap :=
  match m.Get nonce with
  | none => (false, m)
  | some _ => (true, ⟨m.items.filter (fun tx => tx.Nonce != nonce), m.sorted.filter _⟩)

/-- The transactions at consecutive nonces from `next` at the front of a
list, and what is behind them. -/
def readyRun (next : UInt64) : List Transaction → List Transaction × List Transaction
  | [] => ([], [])
  | tx :: txs =>
    if tx.Nonce = next then
      let run := readyRun (next + 1) txs
      (tx :: run.1, run.2)
    else ([], tx :: txs)

theorem readyRun_snd (next : UInt64) :
    ∀ l : List Transaction, (readyRun next l).2 = l.drop (readyRun next l).1.length
  | [] => rfl
  | tx :: txs => by
    unfold readyRun
    split
    · exact readyRun_snd (next + 1) txs
    · rfl

/-- `txSortedMap.Ready`: from the lowest nonce, if it is not above `start`,
the run of consecutive nonces. -/
def Ready (m : TxSortedMap) (start : UInt64) : List Transaction × TxSortedMap :=
  match m.items with
  | [] => ([], m)
  | tx :: _ =>
    if start < tx.Nonce then ([], m)
    else ((readyRun tx.Nonce m.items).1,
      ⟨(readyRun tx.Nonce m.items).2, by
        rw [readyRun_snd]
        exact m.sorted.sublist (List.drop_sublist _ _)⟩)

/-- `txSortedMap.Len`. -/
def Len (m : TxSortedMap) : Nat := m.items.length

/-- `txSortedMap.Flatten`: the transactions by nonce. -/
def Flatten (m : TxSortedMap) : List Transaction := m.items

end TxSortedMap

/-! ## `txList` -/

/-- `txList`: an account's transactions; `strict` for the pending lists,
whose nonces are to run without gaps. `costcap` and `gascap` are at least the
cost and gas of every transaction in the list, so that `Filter` can pass over
a list that the balance and the gas limit cover. -/
structure TxList where
  strict : Bool
  txs : TxSortedMap
  costcap : Int
  gascap : Nat

/-- `newTxList`. -/
def newTxList (strict : Bool) : TxList := ⟨strict, newTxSortedMap, 0, 0⟩

/-- The gas price a replacement of `old` has to exceed:
`old.GasPrice * (100 + priceBump) / 100`, the factor in `int64`. -/
def bumpThreshold (old : Transaction) (priceBump : UInt64) : Int :=
  (old.GasPrice : Int) * (100 + priceBump.toInt64).toInt / 100

/-- The least of the nonces, from `math.MaxUint64` down. -/
def lowestNonce (txs : List Transaction) : UInt64 :=
  txs.foldl (fun lowest tx => if tx.Nonce < lowest then tx.Nonce else lowest) 0xFFFFFFFFFFFFFFFF

namespace TxList

/-- `txList.Overlaps`: a transaction of the same nonce is in the list. -/
def Overlaps (l : TxList) (tx : Transaction) : Bool := (l.txs.Get tx.Nonce).isSome

/-- `txList.Add`: insert `tx` unless a transaction of its nonce is there that
it does not outbid by `priceBump` percent; whether it went in, and the
transaction it replaced. -/
def Add (l : TxList) (tx : Transaction) (priceBump : UInt64) : Bool × Option Transaction × TxList :=
  let added := { l with txs := l.txs.Put tx, costcap := max l.costcap tx.Cost, gascap := max l.gascap tx.Gas }
  match l.txs.Get tx.Nonce with
  | some old => if (tx.GasPrice : Int) ≤ bumpThreshold old priceBump then (false, none, l) else (true, some old, added)
  | none => (true, none, added)

/-- `txList.Forward`. -/
def Forward (l : TxList) (threshold : UInt64) : List Transaction × TxList :=
  let r := l.txs.Forward threshold
  (r.1, { l with txs := r.2 })

/-- `txList.Filter`: remove the transactions that cost more than `costLimit`
or need more gas than `gasLimit`, and in a strict list every transaction above
the lowest nonce removed; the removed ones and those invalidated. -/
def Filter (l : TxList) (costLimit : Int) (gasLimit : Nat) : List Transaction × List Transaction × TxList :=
  if l.costcap ≤ costLimit ∧ l.gascap ≤ gasLimit then ([], [], l)
  else
    let removed := l.txs.Filter fun tx => decide (costLimit < tx.Cost) || decide (gasLimit < tx.Gas)
    let invalids :=
      if l.strict ∧ removed.1 ≠ [] then
        removed.2.Filter fun tx => decide (lowestNonce removed.1 < tx.Nonce)
      else ([], removed.2)
    (removed.1, invalids.1, { l with txs := invalids.2, costcap := costLimit, gascap := gasLimit })

/-- `txList.Cap`. -/
def Cap (l : TxList) (threshold : Nat) : List Transaction × TxList :=
  let r := l.txs.Cap threshold
  (r.1, { l with txs := r.2 })

/-- `txList.Remove`: remove the transaction at `tx`'s nonce, which need not
be `tx`; in a strict list also every transaction above it, which it returns. -/
def Remove (l : TxList) (tx : Transaction) : Bool × List Transaction × TxList :=
  let r := l.txs.Remove tx.Nonce
  if !r.1 then (false, [], l)
  else if l.strict then
    let invalids := r.2.Filter fun t => decide (tx.Nonce < t.Nonce)
    (true, invalids.1, { l with txs := invalids.2 })
  else (true, [], { l with txs := r.2 })

/-- `txList.Ready`. -/
def Ready (l : TxList) (start : UInt64) : List Transaction × TxList :=
  let r := l.txs.Ready start
  (r.1, { l with txs := r.2 })

/-- `txList.Len`. -/
def Len (l : TxList) : Nat := l.txs.Len

/-- `txList.Empty`. -/
def Empty (l : TxList) : Bool := l.Len == 0

/-- `txList.Flatten`. -/
def Flatten (l : TxList) : List Transaction := l.txs.Flatten

/-! ### What the operations do -/

/-- A transaction of the list is the one at its nonce. -/
theorem Get_eq_some_of_mem {tx : Transaction} :
    ∀ {items : List Transaction}, NonceSorted items → tx ∈ items →
      items.find? (fun u => u.Nonce == tx.Nonce) = some tx
  | [], _, h => absurd h List.not_mem_nil
  | a :: as, hs, h => by
    unfold NonceSorted at hs
    rw [List.pairwise_cons] at hs
    rw [List.find?_cons]
    rcases List.mem_cons.mp h with rfl | h
    · simp
    · have hlt : a.Nonce < tx.Nonce := hs.1 tx h
      rw [show (a.Nonce == tx.Nonce) = false from beq_false_of_ne (UInt64.ne_of_lt hlt)]
      exact Get_eq_some_of_mem hs.2 h

/-- A transaction of the list overlaps it. -/
theorem Overlaps_of_mem {l : TxList} {tx : Transaction} (h : tx ∈ l.Flatten) : l.Overlaps tx = true := by
  unfold Overlaps TxSortedMap.Get
  rw [Get_eq_some_of_mem l.txs.sorted h]
  rfl

/-- Removing the lowest transaction of a strict list removes every other as
invalidated and leaves the list empty. -/
theorem Remove_lowest {l : TxList} {tx : Transaction} {rest : List Transaction} (hstrict : l.strict = true)
    (h : l.Flatten = tx :: rest) :
    (l.Remove tx).1 = true ∧ (l.Remove tx).2.1 = rest ∧ (l.Remove tx).2.2.Flatten = [] := by
  have hitems : l.txs.items = tx :: rest := h
  have hsorted := l.txs.sorted
  rw [hitems] at hsorted
  have habove : ∀ u ∈ rest, tx.Nonce < u.Nonce := (List.pairwise_cons.mp hsorted).1
  have hget : l.txs.Get tx.Nonce = some tx := by
    unfold TxSortedMap.Get
    rw [hitems]
    exact Get_eq_some_of_mem hsorted List.mem_cons_self
  -- the transactions left after `tx` are the ones above it
  have hleft : (tx :: rest).filter (fun u => u.Nonce != tx.Nonce) = rest := by
    rw [List.filter_cons_of_neg (by simp), List.filter_eq_self]
    intro u hu
    simpa using (UInt64.ne_of_lt (habove u hu)).symm
  have hinv : rest.filter (fun u => decide (tx.Nonce < u.Nonce)) = rest :=
    List.filter_eq_self.mpr fun u hu => by simpa using habove u hu
  have hkeep : rest.filter (fun u => !decide (tx.Nonce < u.Nonce)) = [] :=
    List.filter_eq_nil_iff.mpr fun u hu => by simpa using habove u hu
  unfold Remove TxSortedMap.Remove
  simp only [hget, hitems, hleft, hstrict, Bool.not_true, Bool.false_eq_true, ↓reduceIte,
    TxSortedMap.Filter, hinv, hkeep, Flatten, TxSortedMap.Flatten, and_self]

end TxList

/-! ## `txSet` -/

/-- How long `txSet` remembers a hash: two hours. -/
def txSetDuration : Nat := 2 * 60 * 60 * 1000000000

/-- `txSet`: the set `txMap` of local transaction hashes, and `txOrd`, the
hashes with the time they were added, oldest first (the entries from
`delPtr` to `addPtr`). -/
structure TxSet where
  txMap : List State.Hash
  txOrd : List (State.Hash × Nat)

/-- `newTxSet`. -/
def newTxSet : TxSet := ⟨[], []⟩

namespace TxSet

/-- `txSet.contains`. -/
def contains (ts : TxSet) (hash : State.Hash) : Bool := ts.txMap.contains hash

/-- Forget the oldest entries while they are older than `delBefore`; a
forgotten hash leaves the set even if it was added again since. -/
def expire (delBefore : Int) : List State.Hash → List (State.Hash × Nat) → TxSet
  | txMap, [] => ⟨txMap, []⟩
  | txMap, (hash, time) :: txOrd =>
    if (time : Int) < delBefore then expire delBefore (txMap.erase hash) txOrd
    else ⟨txMap, (hash, time) :: txOrd⟩

/-- `txSet.add` at time `now`. -/
def add (ts : TxSet) (hash : State.Hash) (now : Nat) : TxSet :=
  expire ((now : Int) - txSetDuration) (ts.txMap.insert hash) (ts.txOrd ++ [(hash, now)])

end TxSet

/-! ## `txPricedList` -/

/-- The heap order of `priceHeap`. -/
def PriceLE (a b : Transaction) : Prop := a.GasPrice ≤ b.GasPrice

instance : DecidableRel PriceLE := fun a b => inferInstanceAs (Decidable (a.GasPrice ≤ b.GasPrice))

instance : Std.Total PriceLE := ⟨fun a b => Nat.le_total a.GasPrice b.GasPrice⟩

instance : IsTrans Transaction PriceLE := ⟨fun _ _ _ => Nat.le_trans⟩

/-- `txPricedList`: the heap `items` by gas price, and `stales`, the number
of its entries the pool is taken to have dropped. -/
structure TxPricedList where
  items : List Transaction
  sorted : items.Pairwise PriceLE
  stales : Int

/-- `newTxPricedList`. -/
def newTxPricedList : TxPricedList := ⟨[], List.Pairwise.nil, 0⟩

/-- `heap.Push` of each transaction in turn. -/
def pushAll (txs items : List Transaction) : List Transaction :=
  txs.foldl (fun items tx => items.orderedInsert PriceLE tx) items

theorem pairwise_pushAll : ∀ (txs : List Transaction) {items : List Transaction},
    items.Pairwise PriceLE → (pushAll txs items).Pairwise PriceLE
  | [], _, h => h
  | tx :: txs, _, h => pairwise_pushAll txs (h.orderedInsert tx _)

/-- What the popping loops leave: the transactions to drop, the local ones
set aside, the stale count and the rest of the heap. -/
structure Popped where
  drop : List Transaction
  save : List Transaction
  stales : Int
  rest : List Transaction

/-- The loop of `txPricedList.Cap`: pop; a stale entry only lowers the count;
stop at the first live entry priced `threshold` or more, which has been popped
and is not pushed back; set local ones aside and drop the others. -/
def capLoop (all : TxLookup) (threshold : Nat) (locals : TxSet) :
    List Transaction → Int → List Transaction → List Transaction → Popped
  | [], stales, drop, save => ⟨drop, save, stales, []⟩
  | tx :: items, stales, drop, save =>
    if !all.live tx then capLoop all threshold locals items (stales - 1) drop save
    else if threshold ≤ tx.GasPrice then ⟨drop, save, stales, items⟩
    else if locals.contains tx.Hash then capLoop all threshold locals items stales drop (save ++ [tx])
    else capLoop all threshold locals items stales (drop ++ [tx]) save

theorem capLoop_rest_sublist (all : TxLookup) (threshold : Nat) (locals : TxSet) :
    ∀ (items : List Transaction) (stales : Int) (drop save : List Transaction),
      List.Sublist (capLoop all threshold locals items stales drop save).rest items
  | [], _, _, _ => List.Sublist.slnil
  | tx :: items, stales, drop, save => by
    unfold capLoop
    split
    · exact (capLoop_rest_sublist all threshold locals items _ _ _).cons tx
    · split
      · exact List.sublist_cons_self tx items
      · split
        · exact (capLoop_rest_sublist all threshold locals items _ _ _).cons tx
        · exact (capLoop_rest_sublist all threshold locals items _ _ _).cons tx

/-- The loop of `txPricedList.Discard`: pop while `count` is positive; a stale
entry only lowers the stale count; set local ones aside and drop the others,
counting the drops. -/
def discardLoop (all : TxLookup) (locals : TxSet) :
    List Transaction → Int → Int → List Transaction → List Transaction → Popped
  | [], _, stales, drop, save => ⟨drop, save, stales, []⟩
  | tx :: items, count, stales, drop, save =>
    if count ≤ 0 then ⟨drop, save, stales, tx :: items⟩
    else if !all.live tx then discardLoop all locals items count (stales - 1) drop save
    else if locals.contains tx.Hash then discardLoop all locals items count stales drop (save ++ [tx])
    else discardLoop all locals items (count - 1) stales (drop ++ [tx]) save

theorem discardLoop_rest_sublist (all : TxLookup) (locals : TxSet) :
    ∀ (items : List Transaction) (count stales : Int) (drop save : List Transaction),
      List.Sublist (discardLoop all locals items count stales drop save).rest items
  | [], _, _, _, _ => List.Sublist.slnil
  | tx :: items, count, stales, drop, save => by
    unfold discardLoop
    split
    · exact List.Sublist.refl _
    · split
      · exact (discardLoop_rest_sublist all locals items _ _ _ _).cons tx
      · split
        · exact (discardLoop_rest_sublist all locals items _ _ _ _).cons tx
        · exact (discardLoop_rest_sublist all locals items _ _ _ _).cons tx

/-- The loop of `txPricedList.Underpriced`: pop the stale entries off the
top. -/
def dropStale (all : TxLookup) : List Transaction → Int → List Transaction × Int
  | [], stales => ([], stales)
  | tx :: items, stales =>
    if !all.live tx then dropStale all items (stales - 1) else (tx :: items, stales)

theorem dropStale_sublist (all : TxLookup) :
    ∀ (items : List Transaction) (stales : Int), List.Sublist (dropStale all items stales).1 items
  | [], _ => List.Sublist.slnil
  | tx :: items, stales => by
    unfold dropStale
    split
    · exact (dropStale_sublist all items _).cons tx
    · exact List.Sublist.refl _

namespace TxPricedList

/-- `txPricedList.Put`. -/
def Put (l : TxPricedList) (tx : Transaction) : TxPricedList :=
  { l with items := l.items.orderedInsert PriceLE tx, sorted := l.sorted.orderedInsert tx _ }

/-- `txPricedList.Removed`: one more stale entry; past a quarter of the heap,
rebuild it from the pool's transactions `all`. -/
def Removed (l : TxPricedList) (all : TxLookup) : TxPricedList :=
  if l.stales + 1 ≤ ((l.items.length / 4 : Nat) : Int) then { l with stales := l.stales + 1 }
  else ⟨all.txs.insertionSort PriceLE, List.pairwise_insertionSort _ _, 0⟩

/-- `txPricedList.Cap`: the remote transactions priced below `threshold`, the
local ones among them pushed back. -/
def Cap (l : TxPricedList) (all : TxLookup) (threshold : Nat) (locals : TxSet) :
    List Transaction × TxPricedList :=
  let r := capLoop all threshold locals l.items l.stales [] []
  (r.drop, ⟨pushAll r.save r.rest,
    pairwise_pushAll r.save (l.sorted.sublist (capLoop_rest_sublist all threshold locals _ _ _ _)), r.stales⟩)

/-- `txPricedList.Underpriced`: `tx` is remote and priced at most the cheapest
transaction in the pool, after the stale entries on top are dropped. -/
def Underpriced (l : TxPricedList) (all : TxLookup) (tx : Transaction) (locals : TxSet) :
    Bool × TxPricedList :=
  if locals.contains tx.Hash then (false, l)
  else
    let r := dropStale all l.items l.stales
    let l' : TxPricedList := ⟨r.1, l.sorted.sublist (dropStale_sublist all _ _), r.2⟩
    match r.1 with
    -- "Pricing query for empty pool"
    | [] => (false, l')
    | cheapest :: _ => (decide (tx.GasPrice ≤ cheapest.GasPrice), l')

/-- `txPricedList.Discard`: up to `count` of the cheapest remote
transactions, the local ones met on the way pushed back. -/
def Discard (l : TxPricedList) (all : TxLookup) (count : Int) (locals : TxSet) :
    List Transaction × TxPricedList :=
  let r := discardLoop all locals l.items count l.stales [] []
  (r.drop, ⟨pushAll r.save r.rest,
    pairwise_pushAll r.save (l.sorted.sublist (discardLoop_rest_sublist all locals _ _ _ _ _)), r.stales⟩)

end TxPricedList

/-! ### What the loops do -/

/-- `Cap` passes over stale entries, counting each off. -/
theorem capLoop_stale_append (all : TxLookup) (threshold : Nat) (locals : TxSet) :
    ∀ {stale : List Transaction}, (∀ u ∈ stale, all.live u = false) →
      ∀ (items : List Transaction) (stales : Int) (drop save : List Transaction),
        capLoop all threshold locals (stale ++ items) stales drop save =
          capLoop all threshold locals items (stales - stale.length) drop save
  | [], _, items, stales, drop, save => by simp
  | u :: stale, h, items, stales, drop, save => by
    have hu : all.live u = false := h u List.mem_cons_self
    rw [List.cons_append, capLoop, if_pos (by simp [hu]),
      capLoop_stale_append all threshold locals (fun v hv => h v (List.mem_cons_of_mem u hv))]
    congr 1
    simp only [List.length_cons, Nat.cast_add, Nat.cast_one]
    omega

/-- `Cap` stops at a live entry priced at the threshold or more, with that
entry popped. -/
theorem capLoop_stop (all : TxLookup) {threshold : Nat} (locals : TxSet) {tx : Transaction}
    (hlive : all.live tx = true) (hprice : threshold ≤ tx.GasPrice) (items : List Transaction) (stales : Int)
    (drop save : List Transaction) :
    capLoop all threshold locals (tx :: items) stales drop save = ⟨drop, save, stales, items⟩ := by
  rw [capLoop, if_neg (by simp [hlive]), if_pos hprice]

/-- `Discard` returns only entries of the heap. -/
theorem mem_discardLoop_drop (all : TxLookup) (locals : TxSet) :
    ∀ (items : List Transaction) (count stales : Int) (drop save : List Transaction) {x : Transaction},
      x ∈ (discardLoop all locals items count stales drop save).drop → x ∈ drop ∨ x ∈ items
  | [], _, _, _, _, _, h => .inl h
  | tx :: items, count, stales, drop, save, x, h => by
    unfold discardLoop at h
    split at h
    · exact .inl h
    · split at h
      · exact (mem_discardLoop_drop all locals items _ _ _ _ h).imp id (List.mem_cons_of_mem tx)
      · split at h
        · exact (mem_discardLoop_drop all locals items _ _ _ _ h).imp id (List.mem_cons_of_mem tx)
        · rcases mem_discardLoop_drop all locals items _ _ _ _ h with h | h
          · rcases List.mem_append.mp h with h | h
            · exact .inl h
            · exact .inr (List.mem_singleton.mp h ▸ List.mem_cons_self)
          · exact .inr (List.mem_cons_of_mem tx h)

theorem TxPricedList.Cap_fst_eq (l : TxPricedList) (all : TxLookup) (threshold : Nat) (locals : TxSet) :
    (l.Cap all threshold locals).1 = (capLoop all threshold locals l.items l.stales [] []).drop := rfl

theorem TxPricedList.Cap_items (l : TxPricedList) (all : TxLookup) (threshold : Nat) (locals : TxSet) :
    (l.Cap all threshold locals).2.items =
      pushAll (capLoop all threshold locals l.items l.stales [] []).save
        (capLoop all threshold locals l.items l.stales [] []).rest := rfl

theorem TxPricedList.Cap_stales (l : TxPricedList) (all : TxLookup) (threshold : Nat) (locals : TxSet) :
    (l.Cap all threshold locals).2.stales = (capLoop all threshold locals l.items l.stales [] []).stales := rfl

theorem TxPricedList.mem_Discard {l : TxPricedList} {all : TxLookup} {count : Int} {locals : TxSet}
    {x : Transaction} (h : x ∈ (l.Discard all count locals).1) : x ∈ l.items :=
  (mem_discardLoop_drop all locals l.items count l.stales [] [] h).resolve_left List.not_mem_nil

end Core

end Bazacoin
