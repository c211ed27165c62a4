import Bazacoin.Trie.Iterator

/-!
# The node iterator walks the loaded tree in pre-order

The stack of a `nodeIterator` over loaded nodes stands for what the walk has
still to visit: for each state, the subtrees of the children after its index,
the current node's first (`Walk`). `nextChild` finds the first of them
(`nextChild_some`), and `peek` pops the states that have none
(`peekLoop_next`), so that `Next(true)` visits the next node of the
pre-order and `Next(false)` the next one after the current subtree.

- `Remains`: the invariant of a node iterator over a tree, from the fresh
  iterator (everything to visit) to the end (nothing).
- `next_true_spec`: one `Next(true)` takes the first node to visit.
- `seekLoop_spec`: `seek` leaves exactly the nodes at or after the key to
  visit, because the pre-order is sorted (`Tree.sorted_preorder`) and what it
  skips lies below the key (`List.lt_of_extends_of_lt`).
- `nextLoop_spec`, `entries_spec`: `Iterator` returns the values among them,
  in order.
-/

namespace Bazacoin

namespace Trie

/-! ## What a state has still to visit -/

/-- What a state over the tree `T` at `path`, at child slot `index`, has still
to visit below it: the subtrees of its children after `index`. -/
def pendingOf : Tree → Bytes → Int → List (Bytes × Tree)
  | .full Ts, path, index =>
    Tree.childrenOf (fun i => (Ts i).preorder (path ++ [Tree.slot i])) Ts
      ((List.finRange 17).drop (index + 1).toNat)
  | .short k c, path, index => if index < 0 then c.preorder (path ++ k) else []
  | _, _, _ => []

theorem pendingOf_start (T : Tree) (path : Bytes) : pendingOf T path (-1) = T.descendants path := by
  cases T <;> rfl

theorem getElem?_drop_finRange {n k : Nat} (h : n + k < 17) :
    ((List.finRange 17).drop n)[k]? = some ⟨n + k, h⟩ := by
  rw [List.getElem?_drop, List.getElem?_eq_getElem (by simp; omega), List.getElem_finRange]
  rfl

/-- The slots after one found in a run of slots are the slots after it. -/
theorem drop_finRange_of_eq {n : Nat} {pre post : List (Fin 17)} {i : Fin 17}
    (h : (List.finRange 17).drop n = pre ++ i :: post) : post = (List.finRange 17).drop (i.val + 1) := by
  have hpost : post = ((List.finRange 17).drop n).drop (pre.length + 1) := by
    rw [h]
    simp [List.drop_append]
  have hlt : n + pre.length < 17 := by
    have := congrArg List.length h
    simp only [List.length_drop, List.length_finRange, List.length_append, List.length_cons] at this
    omega
  have hi : i.val = n + pre.length := by
    have hget := getElem?_drop_finRange hlt
    rw [h, List.getElem?_append_right (le_refl _), Nat.sub_self] at hget
    simp only [List.getElem?_cons_zero, Option.some.injEq] at hget
    rw [hget]
  rw [hpost, List.drop_drop, hi, Nat.add_assoc]

theorem drop_finRange_cons (i : Fin 17) :
    (List.finRange 17).drop i.val = i :: (List.finRange 17).drop (i.val + 1) := by
  rw [List.drop_eq_getElem_cons (by simp), List.getElem_finRange]
  rfl

variable {db : Bytes → Option Bytes} {gen : UInt16}

theorem childrenOf_of_firstChild_none {sub : Fin 17 → List (Bytes × Tree)} {cs : Fin 17 → Node}
    {Ts : Fin 17 → Tree} (hnil : ∀ i, (cs i).isNil = (Ts i).isNil) {is : List (Fin 17)}
    (h : firstChild cs is = none) : Tree.childrenOf sub Ts is = [] := by
  induction is with
  | nil => rfl
  | cons i is ih =>
    unfold firstChild at h
    split at h
    case isTrue hi => rw [Tree.childrenOf, ← hnil i, if_pos hi, ih h, List.nil_append]
    case isFalse => cases h

theorem childrenOf_of_firstChild_some (sub : Fin 17 → List (Bytes × Tree)) {cs : Fin 17 → Node}
    {Ts : Fin 17 → Tree} (hnil : ∀ i, (cs i).isNil = (Ts i).isNil) {is : List (Fin 17)} {i : Fin 17}
    (h : firstChild cs is = some i) :
    ∃ pre post, is = pre ++ i :: post ∧ (Ts i).isNil = false ∧
      Tree.childrenOf sub Ts is = sub i ++ Tree.childrenOf sub Ts post := by
  induction is with
  | nil => cases h
  | cons j is ih =>
    unfold firstChild at h
    split at h
    case isTrue hj =>
      -- a nil slot before the child adds nothing
      obtain ⟨pre, post, rfl, hi, hc⟩ := ih h
      refine ⟨j :: pre, post, rfl, hi, ?_⟩
      rw [Tree.childrenOf, ← hnil j, if_pos hj, hc, List.nil_append]
    case isFalse hj =>
      cases h
      refine ⟨[], is, rfl, by rw [← hnil]; simpa using hj, ?_⟩
      rw [Tree.childrenOf, ← hnil, if_neg hj]

/-! ## One child -/

theorem Loads.isNil_eq_all {cs : Fin 17 → Node} {Ts : Fin 17 → Tree}
    (hcs : ∀ i, Loads db gen (cs i) (Ts i)) (i : Fin 17) : (cs i).isNil = (Ts i).isNil :=
  (hcs i).isNil_eq

/-- What `nextChild` finds: the child state for the subtree `T'` that what
the state has to visit starts with, and the state moved to just before it,
which has still all of that to visit. -/
theorem nextChild_some {F : IterState} {T : Tree} (hload : Loads db gen F.node T)
    (hidx : -1 ≤ F.index) {ancestor : Digest} {path : Bytes} {S : IterState} {p' : Bytes} {F' : IterState}
    (h : nextChild F ancestor path = some (S, p', F')) :
    ∃ T', Loads db gen S.node T' ∧
      pendingOf T path F.index = T'.preorder p' ++ pendingOf T path (F'.index + 1) ∧
      pendingOf T path F'.index = pendingOf T path F.index ∧
      S.index = -1 ∧ S.pathlen = path.length ∧ p'.take path.length = path ∧
      F'.node = F.node ∧ F'.pathlen = F.pathlen ∧ -1 ≤ F'.index := by
  obtain ⟨hash, node, parent, index, pathlen⟩ := F
  cases node
  case full cs f =>
    obtain ⟨Ts, rfl, hcs⟩ := hload.full_inv
    simp only [nextChild] at h
    split at h
    case h_2 => cases h
    case h_1 i hfirst =>
      simp only [Option.some.injEq, Prod.mk.injEq] at h
      obtain ⟨rfl, rfl, rfl⟩ := h
      obtain ⟨pre, post, hsplit, hi, hc⟩ :=
        childrenOf_of_firstChild_some (fun i => (Ts i).preorder (path ++ [Tree.slot i]))
          (Loads.isNil_eq_all hcs) hfirst
      have hpost := drop_finRange_of_eq hsplit
      have hafter : ((i.val : Int) - 1 + 1 + 1).toNat = i.val + 1 := by omega
      have hat : ((i.val : Int) - 1 + 1).toNat = i.val := by omega
      refine ⟨Ts i, hcs i, ?_, ?_, rfl, rfl, by simp, rfl, rfl, by show (-1 : Int) ≤ (i.val : Int) - 1; omega⟩
      · simp only [pendingOf, hafter, hc, hpost]
        rfl
      · simp only [pendingOf, hat, drop_finRange_cons, hc, hpost, Tree.childrenOf, hi]
        rfl
  case short k c f =>
    obtain ⟨Tc, rfl, hc⟩ := hload.short_inv
    simp only [nextChild] at h
    split at h
    case isTrue hneg =>
      simp only [Option.some.injEq, Prod.mk.injEq] at h
      obtain ⟨rfl, rfl, rfl⟩ := h
      dsimp only at hidx hneg ⊢
      -- before the child the index is `-1`; after it, nothing is left
      have hnext : ¬ index + 1 < 0 := by omega
      refine ⟨Tc, hc, ?_, rfl, rfl, rfl, by simp, rfl, rfl, hidx⟩
      simp only [pendingOf, if_pos hneg, if_neg hnext, List.append_nil]
    case isFalse => cases h
  all_goals simp [nextChild] at h

theorem nextChild_none {F : IterState} {T : Tree} (hload : Loads db gen F.node T)
    (hres : F.node.isHash = false) {ancestor : Digest} {path : Bytes} (h : nextChild F ancestor path = none) : pendingOf T path F.index = [] := by
  obtain ⟨hash, node, parent, index, pathlen⟩ := F
  cases node
  case full cs f =>
    obtain ⟨Ts, rfl, hcs⟩ := hload.full_inv
    simp only [nextChild] at h
    split at h
    case h_1 => cases h
    case h_2 hfirst => exact childrenOf_of_firstChild_none (Loads.isNil_eq_all hcs) hfirst
  case short k c f =>
    obtain ⟨Tc, rfl, hc⟩ := hload.short_inv
    simp only [nextChild] at h
    split at h
    case isTrue => cases h
    case isFalse hneg => simp [pendingOf, hneg]
  case hash => simp [Node.isHash] at hres
  all_goals cases hload; rfl

/-! ## The stack -/

/-- A node iterator's stack over loaded nodes, the current node first, at
`path`: every state holds a node (not a hash node) that loads to a tree, at
its path, with the states of its ancestors below it; `R` is what the states
have still to visit, in order. -/
inductive Walk (db : Bytes → Option Bytes) (gen : UInt16) :
    List IterState → Bytes → List (Bytes × Tree) → Prop
  | nil (path : Bytes) : Walk db gen [] path []
  | cons {F : IterState} {rest : List IterState} {path : Bytes} {T : Tree} {R : List (Bytes × Tree)} :
      Loads db gen F.node T → F.node.isHash = false → -1 ≤ F.index →
      Walk db gen rest (path.take F.pathlen) R →
      Walk db gen (F :: rest) path (pendingOf T path F.index ++ R)

theorem Walk.cons_inv {F : IterState} {rest : List IterState} {path : Bytes} {R : List (Bytes × Tree)}
    (h : Walk db gen (F :: rest) path R) :
    ∃ T R', Loads db gen F.node T ∧ F.node.isHash = false ∧ -1 ≤ F.index ∧
      Walk db gen rest (path.take F.pathlen) R' ∧ R = pendingOf T path F.index ++ R' := by
  cases h with
  | cons hload hres hidx hrest => exact ⟨_, _, hload, hres, hidx, hrest, rfl⟩

/-- The loop of `peek` reaches the end exactly when nothing is left. -/
theorem peekLoop_end (tr : Option Trie) {stack : List IterState} {path : Bytes}
    (hw : Walk db gen stack path []) : (peekLoop tr stack path).2 = .error .iteratorEnd := by
  induction stack generalizing path with
  | nil => rfl
  | cons F rest ih =>
    obtain ⟨T, R', hload, hres, hidx, hrest, hR⟩ := hw.cons_inv
    obtain ⟨hpend, rfl⟩ := List.append_eq_nil_iff.mp hR.symm
    rw [peekLoop]
    split
    case h_1 S p' F' hnext =>
      -- a child would leave something to visit
      obtain ⟨T', -, hsplit, -⟩ := nextChild_some hload hidx hnext
      rw [hpend, Tree.preorder_eq_cons] at hsplit
      cases hsplit
    case h_2 hnext => exact ih hrest

/-- The loop of `peek` finds the first node left to visit, `(p', T')`. Left
as it is, the stack still has it to visit; with the child pushed, what
follows it. -/
theorem peekLoop_next {tr : Trie} (hdb : tr.db = db) (hgen : tr.cachegen = gen)
    {stack : List IterState} {path p' : Bytes} {T' : Tree} {R : List (Bytes × Tree)}
    (hw : Walk db gen stack path ((p', T') :: R)) :
    ∃ stack' path' S top rest', peekLoop (some tr) stack path = ((stack', path'), .ok (S, p')) ∧
      Walk db gen stack' path' ((p', T') :: R) ∧ stack' = top :: rest' ∧
      Walk db gen (S :: { top with index := top.index + 1 } :: rest') p' R ∧
      Loads db gen S.node T' ∧ S.node.isHash = false := by
  induction stack generalizing path with
  | nil => cases hw
  | cons F rest ih =>
    obtain ⟨T, R', hload, hres, hidx, hrest, hR⟩ := hw.cons_inv
    rw [peekLoop]
    split
    case h_1 S₀ p₀ F' hnext =>
      obtain ⟨T₀, hload₀, hsplit, hsame, hSidx, hSlen, hp₀, hnode, hlen, hidx'⟩ :=
        nextChild_some hload hidx hnext
      -- the child is the first node left to visit
      rw [hsplit, Tree.preorder_eq_cons, List.cons_append, List.cons_append] at hR
      obtain ⟨⟨rfl, rfl⟩, rfl⟩ := List.cons_eq_cons.mp hR
      obtain ⟨S, hresolve, hloadS, hresS, hSidx', hSlen'⟩ := S₀.resolve_of_loads hdb hgen hload₀ p'
      have hloadF : Loads db gen F'.node T := hnode ▸ hload
      have hresF : F'.node.isHash = false := hnode ▸ hres
      refine ⟨F' :: rest, path, S, F', rest, ?_, ?_, rfl, ?_, hloadS, hresS⟩
      · rw [hresolve]
        rfl
      · -- left as it is, the state before the child has the same to visit
        have hw' : Walk db gen (F' :: rest) path (pendingOf T path F'.index ++ R') :=
          Walk.cons hloadF hresF hidx' (hlen ▸ hrest)
        rwa [hsame, hsplit, Tree.preorder_eq_cons] at hw'
      · -- pushed: the child's descendants, then the slots after it
        have hparent : Walk db gen ({ F' with index := F'.index + 1 } :: rest) path
            (pendingOf T path (F'.index + 1) ++ R') :=
          Walk.cons hloadF hresF (by dsimp only; omega) (hlen ▸ hrest)
        have hchild : Walk db gen (S :: { F' with index := F'.index + 1 } :: rest) p'
            (pendingOf T' p' S.index ++ (pendingOf T path (F'.index + 1) ++ R')) :=
          Walk.cons hloadS hresS (by omega) (by rwa [hSlen', hSlen, hp₀])
        rwa [hSidx', hSidx, pendingOf_start, ← List.append_assoc] at hchild
    case h_2 hnext =>
      rw [nextChild_none hload hres hnext, List.nil_append] at hR
      exact ih (hR ▸ hrest)

/-! ## The node iterator -/

variable (keccak : Bytes → Digest)

/-- A node iterator over the tree `T`, stored in `db` at generation `gen`,
with `R` left to visit when it descends at every step: fresh (all of `T`), on
its way, or at the end. -/
inductive Remains (db : Bytes → Option Bytes) (gen : UInt16) (T : Tree) :
    NodeIterator → List (Bytes × Tree) → Prop
  | fresh {it : NodeIterator} {tr : Trie} :
      it.trie = some tr → tr.db = db → tr.cachegen = gen → Loads db gen tr.root T →
      it.stack = [] → it.err = none → Remains db gen T it (T.preorder [])
  | walking {it : NodeIterator} {tr : Trie} {R : List (Bytes × Tree)} :
      it.trie = some tr → tr.db = db → tr.cachegen = gen → it.stack ≠ [] →
      Walk db gen it.stack it.path R → it.err = none → Remains db gen T it R
  | ended {it : NodeIterator} : it.err = some .iteratorEnd → Remains db gen T it []

variable {T : Tree}

/-- A node the iterator is at: the current state holds a loaded node. -/
def AtNode (db : Bytes → Option Bytes) (gen : UInt16) (it : NodeIterator) (p : Bytes) (T' : Tree) :
    Prop :=
  it.path = p ∧ ∃ S rest, it.stack = S :: rest ∧ Loads db gen S.node T' ∧ S.node.isHash = false

/-- `peek` from a stack that has `(p', T')` next to visit finds it: left
unpushed the iterator has it still to visit, pushed it is at it. -/
theorem peek_walk {it : NodeIterator} {tr : Trie} (htr : it.trie = some tr) (hdb : tr.db = db)
    (hgen : tr.cachegen = gen) (herr : it.err = none) {top : IterState} {rest : List IterState}
    (descend : Bool) {p' : Bytes} {T' : Tree} {R : List (Bytes × Tree)}
    (hstack : it.stack = top :: rest)
    (hw : Walk db gen (if descend then top :: rest else rest)
      (if descend then it.path else it.path.take top.pathlen) ((p', T') :: R)) :
    ∃ it₁ S, it.peek keccak descend = (it₁, .ok (S, true, p')) ∧
      Remains db gen T it₁ ((p', T') :: R) ∧
      Remains db gen T ({ it₁ with err := none }.push S true p') R ∧
      AtNode db gen ({ it₁ with err := none }.push S true p') p' T' ∧ it₁.trie = it.trie := by
  obtain ⟨stack', path', S, top', rest', hloop, hw', rfl, hpushed, hloadS, hresS⟩ :=
    peekLoop_next hdb hgen hw
  have hpeek : it.peek keccak descend =
      ({ it with stack := top' :: rest', path := path' }, .ok (S, true, p')) := by
    cases descend
    all_goals
      simp only [Bool.false_eq_true, if_false, if_true] at hloop
      simp [NodeIterator.peek, hstack, htr, hloop, Outcome.map]
  refine ⟨_, S, hpeek, .walking htr hdb hgen (by simp) hw' herr, ?_, ?_, rfl⟩
  · exact .walking htr hdb hgen (by simp [NodeIterator.push]) hpushed rfl
  · exact ⟨rfl, S, _, rfl, hloadS, hresS⟩

/-- `peek` from a stack that has nothing left to visit reaches the end. -/
theorem peek_walk_end {it : NodeIterator} {top : IterState} {rest : List IterState} (descend : Bool)
    (hstack : it.stack = top :: rest)
    (hw : Walk db gen (if descend then top :: rest else rest)
      (if descend then it.path else it.path.take top.pathlen) []) :
    (it.peek keccak descend).2 = .error .iteratorEnd := by
  have hend := peekLoop_end it.trie hw
  cases descend <;> simp_all [NodeIterator.peek, Outcome.map]

/-- `peek` from the fresh iterator finds the root. -/
theorem peek_fresh {it : NodeIterator} {tr : Trie} (htr : it.trie = some tr) (hdb : tr.db = db)
    (hgen : tr.cachegen = gen) (hload : Loads db gen tr.root T) (hstack : it.stack = [])
    (herr : it.err = none) (descend : Bool) :
    ∃ it₁ S, it.peek keccak descend = (it₁, .ok (S, false, [])) ∧
      Remains db gen T it₁ (T.preorder []) ∧
      Remains db gen T ({ it₁ with err := none }.push S false []) (T.descendants []) ∧
      AtNode db gen ({ it₁ with err := none }.push S false []) [] T ∧ it₁.stack = [] ∧
      it₁.path = it.path := by
  subst hdb hgen
  obtain ⟨root, tr', hhash, hdb', hgen', hload'⟩ := Hash_loads keccak hload
  obtain ⟨S, hresolve, hloadS, hresS, hSidx, hSlen⟩ :=
    IterState.resolve_of_loads ⟨if root ≠ emptyRoot then root else zeroHash, tr'.root, zeroHash,
      -1, 0⟩ hdb' hgen' hload' []
  have hpeek : it.peek keccak descend = ({ it with trie := some tr' }, .ok (S, false, [])) := by
    unfold NodeIterator.peek
    rw [hstack]
    simp only [htr, hhash]
    rw [hresolve]
    rfl
  have hpush : ({ { it with trie := some tr' } with err := none }.push S false []) =
      ⟨some tr', [S], [], none⟩ := by
    simp [NodeIterator.push, hstack]
  refine ⟨_, S, hpeek, .fresh rfl hdb' hgen' hload' hstack herr, ?_, ?_, hstack, rfl⟩
  · -- the root is pushed with nothing below it
    have hw : Walk tr.db tr.cachegen [S] [] (pendingOf T [] S.index ++ []) :=
      Walk.cons hloadS hresS (by rw [hSidx]) (.nil _)
    rw [hSidx, pendingOf_start, List.append_nil] at hw
    rw [hpush]
    exact .walking rfl hdb' hgen' (by simp) hw rfl
  · rw [hpush]
    exact ⟨rfl, S, [], rfl, hloadS, hresS⟩

theorem advance_of_peek_ok {it it₁ : NodeIterator} {descend hasParent : Bool} {S : IterState}
    {p' : Bytes} (h : it.peek keccak descend = (it₁, .ok (S, hasParent, p'))) :
    it.advance keccak descend = .ok (true, { it₁ with err := none }.push S hasParent p') := by
  simp [NodeIterator.advance, h]

theorem advance_of_peek_end {it : NodeIterator} {descend : Bool}
    (h : (it.peek keccak descend).2 = .error .iteratorEnd) :
    it.advance keccak descend =
      .ok (false, { (it.peek keccak descend).1 with err := some .iteratorEnd }) := by
  unfold NodeIterator.advance
  generalize it.peek keccak descend = r at h ⊢
  obtain ⟨it₁, res⟩ := r
  dsimp only at h
  subst h
  rfl

/-- One `Next(true)`: the iterator goes to the first node left to visit, or
reports the end when there is none. -/
theorem next_true_spec {it : NodeIterator} {R : List (Bytes × Tree)} (h : Remains db gen T it R)
    (fuel : Nat) :
    (R = [] → ∃ it', it.Next keccak fuel true = .ok (false, it') ∧ Remains db gen T it' []) ∧
    (∀ p' T' R', R = (p', T') :: R' → ∃ it', it.Next keccak fuel true = .ok (true, it') ∧
      Remains db gen T it' R' ∧ AtNode db gen it' p' T') := by
  cases h with
  | fresh htr hdb hgen hload hstack herr =>
    refine ⟨fun hnil => by simp [Tree.preorder_eq_cons] at hnil, fun p' T' R' hR => ?_⟩
    rw [Tree.preorder_eq_cons] at hR
    obtain ⟨⟨rfl, rfl⟩, rfl⟩ := List.cons_eq_cons.mp hR
    obtain ⟨it₁, S, hpeek, -, hpushed, hat, -⟩ := peek_fresh keccak htr hdb hgen hload hstack herr true
    refine ⟨_, ?_, hpushed, hat⟩
    simp only [NodeIterator.Next, herr]
    exact advance_of_peek_ok keccak hpeek
  | walking htr hdb hgen hne hw herr =>
    obtain ⟨top, rest, hstack⟩ := List.exists_cons_of_ne_nil hne
    rw [hstack] at hw
    refine ⟨fun hnil => ?_, fun p' T' R' hR => ?_⟩
    · -- nothing left: the loop of `peek` pops every state
      subst hnil
      have hend := peek_walk_end keccak true hstack (by simpa using hw)
      refine ⟨{ (it.peek keccak true).1 with err := some .iteratorEnd }, ?_, .ended rfl⟩
      simp only [NodeIterator.Next, herr]
      exact advance_of_peek_end keccak hend
    · subst hR
      obtain ⟨it₁, S, hpeek, -, hpushed, hat, -⟩ :=
        peek_walk keccak htr hdb hgen herr true hstack (by simpa using hw)
      refine ⟨_, ?_, hpushed, hat⟩
      simp only [NodeIterator.Next, herr]
      exact advance_of_peek_ok keccak hpeek
  | ended herr =>
    refine ⟨fun _ => ⟨it, by simp [NodeIterator.Next, herr], .ended herr⟩, fun _ _ _ hR => ?_⟩
    cases hR

theorem Remains.err_eq_none {it : NodeIterator} {R : List (Bytes × Tree)}
    (h : Remains db gen T it R) (hR : R ≠ []) : it.err = none := by
  cases h with
  | fresh _ _ _ _ _ herr => exact herr
  | walking _ _ _ _ _ herr => exact herr
  | ended => exact absurd rfl hR

theorem NodeIterator.with_err_none {it : NodeIterator} (h : it.err = none) :
    { it with err := none } = it := by
  cases it
  cases h
  rfl

/-- `peek` over a stack that walks `R₀` reaches the end when `R₀` is empty,
and otherwise its first node. -/
theorem peek_walk_or_end {it : NodeIterator} {tr : Trie} (htr : it.trie = some tr)
    (hdb : tr.db = db) (hgen : tr.cachegen = gen) (herr : it.err = none) {top : IterState}
    {rest : List IterState} (descend : Bool) {R₀ : List (Bytes × Tree)}
    (hstack : it.stack = top :: rest)
    (hw : Walk db gen (if descend then top :: rest else rest)
      (if descend then it.path else it.path.take top.pathlen) R₀) :
    ((it.peek keccak descend).2 = .error .iteratorEnd ∧ R₀ = []) ∨
    ∃ it₁ S p' T' R', it.peek keccak descend = (it₁, .ok (S, true, p')) ∧ it₁.err = none ∧
      Remains db gen T it₁ ((p', T') :: R') ∧ Remains db gen T (it₁.push S true p') R' ∧
      R₀ = (p', T') :: R' := by
  cases R₀ with
  | nil => exact .inl ⟨peek_walk_end keccak descend hstack hw, rfl⟩
  | cons x R' =>
    obtain ⟨p', T'⟩ := x
    obtain ⟨it₁, S, hpeek, hrem, hpushed, -, -⟩ := peek_walk keccak (T := T) htr hdb hgen herr descend hstack hw
    have herr₁ := hrem.err_eq_none (List.cons_ne_nil _ _)
    rw [NodeIterator.with_err_none herr₁] at hpushed
    exact .inr ⟨it₁, S, p', T', R', hpeek, herr₁, hrem, hpushed, rfl⟩

/-! ## Seeking -/

/-- The nodes of `R` at or after the hex path `key`: what `seek` for `key`
leaves to visit. -/
def atOrAfter (key : Bytes) (R : List (Bytes × Tree)) : List (Bytes × Tree) :=
  R.filter fun x => decide (key ≤ x.1)

theorem atOrAfter_cons_of_lt {key : Bytes} {x : Bytes × Tree} (hx : x.1 < key)
    (R : List (Bytes × Tree)) : atOrAfter key (x :: R) = atOrAfter key R := by
  have hnot : ¬ key ≤ x.1 := List.not_le.mpr hx
  simp [atOrAfter, hnot]

theorem atOrAfter_append_of_lt {key : Bytes} {P : List (Bytes × Tree)} (hP : ∀ x ∈ P, x.1 < key)
    (R : List (Bytes × Tree)) : atOrAfter key (P ++ R) = atOrAfter key R := by
  induction P with
  | nil => rfl
  | cons x P ih =>
    rw [List.cons_append, atOrAfter_cons_of_lt (hP x (by simp)),
      ih (fun y hy => hP y (List.mem_cons_of_mem x hy))]

/-- A sorted run whose first node is at or after the key is at or after it
as a whole. -/
theorem atOrAfter_of_le_head {key : Bytes} {x : Bytes × Tree} {R : List (Bytes × Tree)}
    (hs : (x :: R).Pairwise (fun a b => a.1 < b.1)) (hx : key ≤ x.1) :
    atOrAfter key (x :: R) = x :: R := by
  refine List.filter_eq_self.mpr fun y hy => decide_eq_true ?_
  rcases List.mem_cons.mp hy with rfl | hy
  · exact hx
  · -- below the key, `y` would put `x` below it too
    exact fun hlt => hx (List.lt_trans (List.rel_of_pairwise_cons hs hy) hlt)

theorem prefix_of_mem_pendingOf (T : Tree) (path : Bytes) (index : Int) {x : Bytes × Tree}
    (hx : x ∈ pendingOf T path index) : path <+: x.1 := by
  cases T with
  | full Ts =>
    obtain ⟨i, -, -, hi⟩ := Tree.mem_childrenOf.mp hx
    exact (List.prefix_append path _).trans (Tree.prefix_of_mem_preorder _ _ hi)
  | short k c =>
    simp only [pendingOf] at hx
    split at hx
    · exact (List.prefix_append path k).trans (Tree.prefix_of_mem_preorder _ _ hx)
    · cases hx
  | nil | value _ => cases hx

/-- Where `seek` for `key` is between its rounds: `R` is left to visit, a
suffix of the whole walk with all of it that is at or after the key, and the
iterator is at a node below the key once it has left the start. -/
structure Seeking (db : Bytes → Option Bytes) (gen : UInt16) (T : Tree) (key : Bytes)
    (it : NodeIterator) (R : List (Bytes × Tree)) : Prop where
  remains : Remains db gen T it R
  err : it.err = none
  suffix : R <:+ T.preorder []
  atOrAfter_eq : atOrAfter key R = atOrAfter key (T.preorder [])
  below : it.stack ≠ [] → it.path < key

variable {key : Bytes}

/-- One `peek` of `seek`: the end, when nothing is at or after the key, or
the next node, with what it skipped below the key. -/
theorem peek_seeking {it : NodeIterator} {R : List (Bytes × Tree)} (h : Seeking db gen T key it R) :
    ((it.peek keccak (it.path.isPrefixOf key)).2 = .error .iteratorEnd ∧
      atOrAfter key (T.preorder []) = []) ∨
    ∃ it₁ S hasParent p' T' R', it.peek keccak (it.path.isPrefixOf key) = (it₁, .ok (S, hasParent, p')) ∧
      it₁.err = none ∧ Remains db gen T it₁ ((p', T') :: R') ∧
      Remains db gen T (it₁.push S hasParent p') R' ∧
      (p', T') :: R' <:+ R ∧ atOrAfter key ((p', T') :: R') = atOrAfter key R := by
  cases h.remains with
  | fresh htr hdb hgen hload hstack herr =>
    obtain ⟨it₁, S, hpeek, hrem, hpushed, -, -⟩ := peek_fresh keccak htr hdb hgen hload hstack herr _
    rw [Tree.preorder_eq_cons T []] at hrem ⊢
    have herr₁ := hrem.err_eq_none (List.cons_ne_nil _ _)
    rw [NodeIterator.with_err_none herr₁] at hpushed
    exact .inr ⟨it₁, S, false, [], T, T.descendants [], hpeek, herr₁, hrem, hpushed,
      List.suffix_refl _, rfl⟩
  | walking htr hdb hgen hne hw herr =>
    obtain ⟨top, rest, hstack⟩ := List.exists_cons_of_ne_nil hne
    rw [hstack] at hw
    cases hd : it.path.isPrefixOf key
    case true =>
      -- on the key's way: look into the current node
      rcases peek_walk_or_end keccak (T := T) htr hdb hgen herr true hstack
        (by simpa using hw) with ⟨hend, rfl⟩ | ⟨it₁, S, p', T', R', hpeek, herr₁, hrem, hpushed, rfl⟩
      · exact .inl ⟨hend, by rw [← h.atOrAfter_eq]; rfl⟩
      · exact .inr ⟨it₁, S, true, p', T', R', hpeek, herr₁, hrem, hpushed, List.suffix_refl _, rfl⟩
    case false =>
      -- off the key's way and below it: the current subtree is all below the key
      have hoff : ¬ it.path <+: key := fun hp => by
        rw [List.isPrefixOf_iff_prefix.mpr hp] at hd
        cases hd
      have hlt : it.path < key := h.below hne
      obtain ⟨Ttop, R₂, -, -, -, hrest, hR⟩ := hw.cons_inv
      have hpass : ∀ x ∈ pendingOf Ttop it.path top.index, x.1 < key := fun x hx =>
        List.lt_of_extends_of_lt hlt hoff (prefix_of_mem_pendingOf _ _ _ hx)
      have hat : atOrAfter key R = atOrAfter key R₂ := by
        rw [hR, atOrAfter_append_of_lt hpass]
      rcases peek_walk_or_end keccak (T := T) htr hdb hgen herr false hstack
        (by simpa using hrest) with ⟨hend, rfl⟩ | ⟨it₁, S, p', T', R', hpeek, herr₁, hrem, hpushed, rfl⟩
      · exact .inl ⟨hend, by rw [← h.atOrAfter_eq, hat]; rfl⟩
      · refine .inr ⟨it₁, S, true, p', T', R', hpeek, herr₁, hrem, hpushed, ?_, hat.symm⟩
        rw [hR]
        exact List.suffix_append _ _
  | ended herr => simp [h.err] at herr


/-- The rounds of `seek` for `key`: each pushes a node below the key, and the
loop stops at the first node at or after it, so that what is left is what
is at or after the key. A round takes a node off `R`, so `R.length` rounds
are enough. -/
theorem seekLoop_spec (hT : T.KeysNonempty) (pfx : Bytes) (fuel : Nat) :
    ∀ {it : NodeIterator} {R : List (Bytes × Tree)}, Seeking db gen T key it R → R.length < fuel →
      ∃ err it', it.seekLoop keccak pfx key fuel = .ok (err, it') ∧
        Remains db gen T { it' with err := err } (atOrAfter key (T.preorder [])) := by
  induction fuel with
  | zero => intro it R _ hfuel; omega
  | succ n ih =>
    intro it R h hfuel
    rcases peek_seeking keccak h with ⟨hend, hnone⟩ |
      ⟨it₁, S, hasParent, p', T', R', hpeek, herr₁, hrem, hpushed, hsuf, hat⟩
    · refine ⟨some .iteratorEnd, (it.peek keccak (it.path.isPrefixOf key)).1, ?_, ?_⟩
      · unfold NodeIterator.seekLoop
        generalize it.peek keccak (it.path.isPrefixOf key) = r at hend ⊢
        obtain ⟨it₂, res⟩ := r
        dsimp only at hend
        subst hend
        rfl
      · rw [hnone]
        exact .ended rfl
    · have hsuf' : (p', T') :: R' <:+ T.preorder [] := hsuf.trans h.suffix
      by_cases hlt : p' < key
      · -- below the key: push it and go on
        have hS : Seeking db gen T key (it₁.push S hasParent p') R' :=
          { remains := hpushed
            err := herr₁
            suffix := (List.suffix_cons _ _).trans hsuf'
            atOrAfter_eq := by rw [← atOrAfter_cons_of_lt (x := (p', T')) hlt, hat, h.atOrAfter_eq]
            below := fun _ => hlt }
        have hlen : R'.length < n := by
          have := hsuf.length_le
          simp only [List.length_cons] at this
          omega
        obtain ⟨err, it', hloop, hrem'⟩ := ih hS hlen
        refine ⟨err, it', ?_, hrem'⟩
        rw [NodeIterator.seekLoop, hpeek]
        simp only [hlt, not_true_eq_false, if_false]
        exact hloop
      · -- at or after the key: stop, and what is left is sorted
        refine ⟨none, it₁, ?_, ?_⟩
        · rw [NodeIterator.seekLoop, hpeek]
          simp only [hlt, not_false_eq_true, if_true]
        · have hsorted := (Tree.sorted_preorder T hT []).sublist hsuf'.sublist
          rw [NodeIterator.with_err_none herr₁, ← h.atOrAfter_eq, ← hat,
            atOrAfter_of_le_head hsorted (List.not_lt.mp hlt)]
          exact hrem

/-- The fresh iterator `newNodeIterator` builds seeks from the start; so it is
left with what is at or after the start key to visit. -/
theorem newNodeIterator_spec {t : Trie} (hload : Loads t.db t.cachegen t.root T)
    (hT : T.KeysNonempty) (hne : ∀ d t', t.Hash keccak = .ok (d, t') → d ≠ keccak [])
    (start : Bytes) (fuel : Nat) (hfuel : (T.preorder []).length < fuel) :
    ∃ it, newNodeIterator keccak fuel t start = .ok it ∧
      Remains t.db t.cachegen T it (atOrAfter (keybytesToHex start).dropLast (T.preorder [])) := by
  obtain ⟨d, t', hhash, hdb, hgen, hload'⟩ := Hash_loads keccak hload
  have hS : Seeking t.db t.cachegen T (keybytesToHex start).dropLast ⟨some t', [], [], none⟩
      (T.preorder []) :=
    { remains := .fresh rfl hdb hgen hload' rfl rfl
      err := rfl
      suffix := List.suffix_refl _
      atOrAfter_eq := rfl
      below := fun hne => absurd rfl hne }
  obtain ⟨err, it', hseek, hrem⟩ := seekLoop_spec keccak hT start fuel hS hfuel
  refine ⟨{ it' with err := err }, ?_, hrem⟩
  rw [newNodeIterator, hhash]
  simp only [hne d t' hhash, if_false, NodeIterator.seek, hseek, Outcome.map]

/-! ## The key-value iterator -/

/-- A node that is a value, as the entry `Iterator` reports at its path. -/
def valueEntry (x : Bytes × Tree) : Option (Bytes × Bytes) :=
  match x.2 with
  | .value v => some (x.1, v)
  | _ => none

/-- The values among the nodes `R`, with their paths: what `Iterator` reports
of a walk. -/
def valuesOf (R : List (Bytes × Tree)) : List (Bytes × Bytes) := R.filterMap valueEntry

@[simp]
theorem valuesOf_nil : valuesOf [] = [] := rfl

@[simp]
theorem valuesOf_cons_value (p v : Bytes) (R : List (Bytes × Tree)) :
    valuesOf ((p, .value v) :: R) = (p, v) :: valuesOf R := rfl

theorem valuesOf_cons_inner {p : Bytes} {T' : Tree} (h : T'.Inner) (R : List (Bytes × Tree)) :
    valuesOf ((p, T') :: R) = valuesOf R := by
  cases T' with
  | value v => exact absurd h (by simp [Tree.Inner])
  | nil | short _ _ | full _ => rfl

theorem valueEntry_eq_some {x : Bytes × Tree} {p v : Bytes} :
    valueEntry x = some (p, v) ↔ x = (p, .value v) := by
  obtain ⟨q, T'⟩ := x
  cases T' <;> simp [valueEntry, and_comm]

theorem mem_valuesOf {R : List (Bytes × Tree)} {p v : Bytes} :
    (p, v) ∈ valuesOf R ↔ (p, .value v) ∈ R := by
  simp [valuesOf, List.mem_filterMap, valueEntry_eq_some]

/-- The values of a walk sorted by path come sorted by path. -/
theorem sorted_valuesOf {R : List (Bytes × Tree)} (hs : R.Pairwise (fun x y => x.1 < y.1)) :
    ((valuesOf R).map Prod.fst).Pairwise (· < ·) := by
  rw [List.pairwise_map, valuesOf, List.pairwise_filterMap]
  refine hs.imp fun {x y} hxy b hb b' hb' => ?_
  obtain ⟨p, v⟩ := b
  obtain ⟨p', v'⟩ := b'
  rw [valueEntry_eq_some.mp hb, valueEntry_eq_some.mp hb'] at hxy
  exact hxy

section Entries

variable (hT : T.Inner) (hkeys : ∀ p v, T.toMap p = some v → ∃ k, keybytesToHex k = p)

/-- What a node iterator over `T` yields to `Iterator`: the values of the `n`
nodes it has left to visit. -/
def YieldsValues (db : Bytes → Option Bytes) (gen : UInt16) (T : Tree) (it : NodeIterator)
    (O : List (Bytes × Bytes)) (n : Nat) : Prop :=
  ∃ R, Remains db gen T it R ∧ R.Sublist (T.preorder []) ∧ valuesOf R = O ∧ R.length = n

include hT hkeys in
/-- One `Next(true)` of a node iterator, as `Iterator` sees it: the next node
is a leaf exactly when it is a value, which lies at the hex form of a key. -/
theorem next_yields (fuel : Nat) (it : NodeIterator) (O : List (Bytes × Bytes)) (n : Nat)
    (h : YieldsValues db gen T it O n) :
    ∃ more it', (NodeIterator.methods keccak fuel).Next it true = .ok (more, it') ∧
      (more = false → O = []) ∧
      (more = true → ∃ n' < n,
        ((NodeIterator.methods keccak fuel).Leaf it' = true → ∃ k v O',
          (NodeIterator.methods keccak fuel).LeafKey it' = .ok k ∧
          (NodeIterator.methods keccak fuel).LeafBlob it' = .ok v ∧
          O = (keybytesToHex k, v) :: O' ∧ YieldsValues db gen T it' O' n') ∧
        ((NodeIterator.methods keccak fuel).Leaf it' = false → YieldsValues db gen T it' O n')) := by
  obtain ⟨R, hrem, hsub, rfl, rfl⟩ := h
  have hnext := next_true_spec keccak hrem fuel
  cases R with
  | nil =>
    obtain ⟨it', hN, -⟩ := hnext.1 rfl
    exact ⟨false, it', hN, fun _ => rfl, fun h => by cases h⟩
  | cons x R' =>
    obtain ⟨p', T'⟩ := x
    obtain ⟨it', hN, hrem', hat⟩ := hnext.2 p' T' R' rfl
    have hsub' := (List.sublist_cons_self _ _).trans hsub
    have hmem : (p', T') ∈ T.preorder [] := hsub.subset (List.mem_cons_self ..)
    refine ⟨true, it', hN, fun h => (by cases h), fun _ => ⟨R'.length, by simp, ?_⟩⟩
    show (it'.Leaf = true → _) ∧ (it'.Leaf = false → _)
    rcases Tree.placed_of_mem_preorder hT (fun _ h => by cases h) hmem with
      ⟨hnib, hinner⟩ | ⟨-, v, rfl⟩
    · -- an inner node is not a leaf, and has no value
      have hleaf : it'.Leaf = false := by
        rw [NodeIterator.Leaf, hat.1]
        exact hasTerm_of_nibbles hnib
      refine ⟨fun hl => absurd (hleaf ▸ hl) Bool.false_ne_true, fun _ => ?_⟩
      exact ⟨R', hrem', hsub', (valuesOf_cons_inner hinner R').symm, rfl⟩
    · -- a value lies at the hex form of a key, which `LeafKey` reads back
      obtain ⟨r, hr, hmap⟩ := (Tree.value_mem_preorder_iff T [] p' v).mp hmem
      obtain ⟨k, hk⟩ := hkeys r v hmap
      rw [List.nil_append] at hr
      subst hr
      obtain ⟨hpath, S, rest, hstack, hloadS, hresS⟩ := hat
      have hSv : S.node = .value v := Loads.value_inv hloadS hresS
      have hleaf : it'.Leaf = true := by
        rw [NodeIterator.Leaf, hpath, ← hk]
        exact hasTerm_append_term _
      have hkey : it'.LeafKey (ε := OutOfFuel) = .ok k := by
        simp [NodeIterator.LeafKey, hstack, hSv, hpath, ← hk, hexToKeybytes_keybytesToHex]
      have hblob : it'.LeafBlob (ε := OutOfFuel) = .ok v := by
        simp [NodeIterator.LeafBlob, hstack, hSv]
      refine ⟨fun _ => ⟨k, v, valuesOf R', hkey, hblob, by rw [valuesOf_cons_value, hk], ?_⟩,
        fun hl => absurd (hleaf ▸ hl) Bool.noConfusion⟩
      exact ⟨R', hrem', hsub', rfl, rfl⟩

end Entries

/-- The key-value iterator from a start key, `NewIterator(t.NodeIterator(start))`:
over a trie whose nodes load to a tree that stores byte keys, with enough
rounds, it reports exactly the entries whose hex path is at or after the hex
form of the start key without terminator, in increasing order of hex path.
The root hash is not `keccak` of no data, which would make the code skip the
trie as empty. -/
theorem iterator_entries_exact_ordered {t : Trie} (hload : Loads t.db t.cachegen t.root T)
    (hT : T.Inner) (hkeys : ∀ p v, T.toMap p = some v → ∃ k, keybytesToHex k = p)
    (hne : ∀ d t', t.Hash keccak = .ok (d, t') → d ≠ keccak []) (start : Bytes) (fuel : Nat)
    (hfuel : (T.preorder []).length < fuel) :
    ∃ L, iteratorEntries keccak fuel t start = .ok L ∧
      (∀ k v, (k, v) ∈ L ↔
        T.toMap (keybytesToHex k) = some v ∧ (keybytesToHex start).dropLast ≤ keybytesToHex k) ∧
      (L.map Prod.fst).Nodup ∧ (L.map fun e => keybytesToHex e.1).Pairwise (· < ·) := by
  obtain ⟨it, hnew, hrem⟩ :=
    newNodeIterator_spec keccak hload (Tree.keysNonempty_of_inner hT) hne start fuel hfuel
  have hsub : (atOrAfter (keybytesToHex start).dropLast (T.preorder [])).Sublist (T.preorder []) :=
    List.filter_sublist
  have hlen := lt_of_le_of_lt hsub.length_le hfuel
  have hvlen := lt_of_le_of_lt (List.length_filterMap_le valueEntry _) hlen
  have hyields : YieldsValues t.db t.cachegen T (NewIterator it).nodeIt
      (valuesOf (atOrAfter (keybytesToHex start).dropLast (T.preorder []))) _ :=
    ⟨_, hrem, hsub, rfl, rfl⟩
  obtain ⟨L, hL, hmap⟩ :=
    Iterator.entries_spec (next_yields keccak hT hkeys fuel) fuel fuel hyields hlen hvlen
  have hinj : Function.Injective fun e : Bytes × Bytes => (keybytesToHex e.1, e.2) :=
    fun a b hab => Prod.ext (keybytesToHex_inj (Prod.mk.inj hab).1) (Prod.mk.inj hab).2
  -- the hex paths the iterator reports are those of the values it walks, in order
  have hsorted : (L.map fun e => keybytesToHex e.1).Pairwise (· < ·) := by
    have h := sorted_valuesOf ((Tree.sorted_preorder T (Tree.keysNonempty_of_inner hT) []).sublist hsub)
    rwa [← hmap, List.map_map] at h
  refine ⟨L, by rw [iteratorEntries, hnew]; exact hL, fun k v => ?_, ?_, hsorted⟩
  · rw [← List.mem_map_of_injective hinj, hmap, mem_valuesOf, atOrAfter, List.mem_filter,
      Tree.value_mem_preorder_iff]
    simp
  · rw [List.Nodup, List.pairwise_map]
    rw [List.pairwise_map] at hsorted
    refine hsorted.imp fun {a b} hab heq => ?_
    rw [heq] at hab
    exact List.lt_irrefl _ hab


/-- A trie of the keys `[1]` and `[2]`, in memory: a short node over the
common nibble, a full node, and a leaf under each of slots 1 and 2. -/
def sampleChildren : Fin 17 → Node := fun i =>
  if i.val = 1 then .short [16] (.value [5]) ⟨none, 0, true⟩
  else if i.val = 2 then .short [16] (.value [6]) ⟨none, 0, true⟩
  else .nil

def sampleTrie : Trie := ⟨.short [0] (.full sampleChildren ⟨none, 0, true⟩) ⟨none, 0, true⟩, fun _ => none, [], 0, 0⟩

/-- The tree `sampleTrie` stores. -/
def sampleTreeChildren : Fin 17 → Tree := fun i =>
  if i.val = 1 then .short [16] (.value [5])
  else if i.val = 2 then .short [16] (.value [6])
  else .nil

def sampleTree : Tree := .short [0] (.full sampleTreeChildren)

theorem iterator_entries_exact_ordered_from_two :
    ∃ L, iteratorEntries bytesToHash 10 sampleTrie [2] = .ok L ∧
      (∀ k v, (k, v) ∈ L ↔
        sampleTree.toMap (keybytesToHex k) = some v ∧ (keybytesToHex [2]).dropLast ≤ keybytesToHex k) ∧
      (L.map Prod.fst).Nodup ∧ (L.map fun e => keybytesToHex e.1).Pairwise (· < ·) := by
  have hload : Loads sampleTrie.db sampleTrie.cachegen sampleTrie.root sampleTree := by
    refine .short (.full fun i => ?_)
    unfold sampleChildren sampleTreeChildren
    split_ifs
    exacts [.short (.value _), .short (.value _), .nil]
  have hleaf : ∀ v : Bytes, v ≠ [] → (Tree.short [16] (.value v)).Inner := fun v hv =>
    .inl ⟨⟨[], by simp [Nibbles], rfl⟩, v, hv, rfl⟩
  have hT : sampleTree.Inner := by
    refine .inr ⟨by simp, by simp [Nibbles], fun i _ => ?_, trivial⟩
    unfold sampleTreeChildren
    split_ifs
    exacts [hleaf _ (by simp), hleaf _ (by simp), trivial]
  have hvals : valuesOf (sampleTree.preorder []) = [([0, 1, 16], [5]), ([0, 2, 16], [6])] := by
    decide +kernel
  have hkeys : ∀ p v, sampleTree.toMap p = some v → ∃ k, keybytesToHex k = p := by
    intro p v h
    have hm := mem_valuesOf.mpr ((Tree.value_mem_preorder_iff _ [] p v).mpr ⟨p, rfl, h⟩)
    rw [hvals] at hm
    simp only [List.mem_cons, Prod.mk.injEq, List.not_mem_nil, or_false] at hm
    rcases hm with ⟨rfl, -⟩ | ⟨rfl, -⟩
    exacts [⟨[1], rfl⟩, ⟨[2], rfl⟩]
  have hcheck : (match sampleTrie.Hash bytesToHash with
      | .ok (d, _) => decide (d ≠ bytesToHash [])
      | _ => true) = true := by
    decide +kernel
  have hne : ∀ d t', sampleTrie.Hash bytesToHash = .ok (d, t') → d ≠ bytesToHash [] := by
    intro d t' h
    rw [h] at hcheck
    exact of_decide_eq_true hcheck
  exact iterator_entries_exact_ordered bytesToHash hload hT hkeys hne [2] 10 (by decide +kernel)

end Trie

end Bazacoin
