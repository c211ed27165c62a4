import Bazacoin.Consensus.Bzhash

/-!
# The full dataset answers as the light cache (`consensus/bzhash/algorithm.go`)

`hashimotoLight` computes each dataset item it needs from the cache, and
`hashimotoFull` reads it from the dataset `generateDataset` wrote. The two
agree when every item the mixing loop can ask for sits in the dataset at its
place.

`generateDataset` gives each goroutine a batch of `⌈items / threads⌉`
indices. On the sizes `Sizes` names (a whole number of mix rows, at least 100
items so that the progress period is not zero, and room in `uint32` for the
batches) the batches cover every item, so a schedule that runs every
goroutine to the end of its batch generates every item, whatever the
interleaving, and no iteration panics. Each item is copied to
`dataset[index*hashBytes:]`, with the offset computed in `uint32`. Up to 4 GiB
the offsets are exact and every byte of the dataset is the byte of its item
(`FilledBelow`), so `hashimotoFull` over the dataset and `hashimotoLight` over the
cache return the same digest and result (`hashimotoFull_generateDataset`).

From 4 GiB on the offset of item `2^26`, and of every later one, wraps to the
start of the dataset: nothing is written past byte `2^32` (`Below`), and the
later items read back as zero words. The table of dataset sizes gives epoch
385 a dataset of 4303349632 bytes; there `hashimotoFull` and `hashimotoLight`
disagree.
-/

namespace Bazacoin

namespace Bzhash

/-! ## The goroutines' batches

`uint64` and `uint32` arithmetic of `generateDataset`, exact on the sizes
below. -/

section

variable {size threads : Nat}

theorem toNat_items (h : size < 2 ^ 64) (h' : size / hashBytes < 2 ^ 32) :
    (items size).toNat = size / hashBytes := by
  rw [items, UInt64.toNat_toUInt32, UInt64.toNat_div, UInt64.toNat_ofNat_of_lt' h,
    UInt64.toNat_ofNat_of_lt' (by decide : hashBytes < 2 ^ 64), Nat.mod_eq_of_lt h']

theorem toNat_percent (h : size < 2 ^ 64) (h' : size / hashBytes < 2 ^ 32) :
    (percent size).toNat = size / hashBytes / 100 := by
  have h100 : UInt64.toNat 100 = 100 := rfl
  rw [percent, UInt64.toNat_toUInt32, UInt64.toNat_div, UInt64.toNat_div, UInt64.toNat_ofNat_of_lt' h,
    UInt64.toNat_ofNat_of_lt' (by decide : hashBytes < 2 ^ 64), h100, Nat.mod_eq_of_lt (by omega)]

theorem toNat_batch (h : size + hashBytes * threads < 2 ^ 64) (hT : 0 < threads)
    (hb : (size + hashBytes * threads - 1) / (hashBytes * threads) < 2 ^ 32) :
    (batch size threads).toNat = (size + hashBytes * threads - 1) / (hashBytes * threads) := by
  have hT' : threads < 2 ^ 64 := by unfold hashBytes at h; omega
  have hmul : (UInt64.ofNat hashBytes * UInt64.ofNat threads).toNat = hashBytes * threads := by
    rw [UInt64.toNat_mul, UInt64.toNat_ofNat_of_lt' (by decide : hashBytes < 2 ^ 64),
      UInt64.toNat_ofNat_of_lt' hT', Nat.mod_eq_of_lt (by omega)]
  have hsize : size < 2 ^ 64 := by omega
  have hsum : (UInt64.ofNat size + UInt64.ofNat hashBytes * UInt64.ofNat threads).toNat =
      size + hashBytes * threads := by
    rw [UInt64.toNat_add, hmul, UInt64.toNat_ofNat_of_lt' hsize, Nat.mod_eq_of_lt h]
  have hone : (1 : UInt64) ≤ UInt64.ofNat size + UInt64.ofNat hashBytes * UInt64.ofNat threads := by
    rw [UInt64.le_iff_toNat_le, hsum, UInt64.toNat_one]
    unfold hashBytes
    omega
  rw [batch, UInt64.toNat_toUInt32, UInt64.toNat_div, UInt64.toNat_sub_of_le _ _ hone, hsum, hmul,
    UInt64.toNat_one, Nat.mod_eq_of_lt hb]

/-- A goroutine's loop stops at the item count at the latest. -/
theorem limit_le_items (id : Nat) : limit size threads id ≤ items size := by
  unfold limit
  dsimp only
  split
  case isTrue => exact UInt32.le_refl _
  case isFalse h => exact UInt32.not_lt.1 h

end

/-- The sizes on which the goroutines' arithmetic is exact: a whole number of
mix rows, at least 100 items, so that the progress period is not zero, and
room in `uint32` for the items and one more item per goroutine. -/
structure Sizes (size threads : Nat) : Prop where
  rows : size % mixBytes = 0
  many : 100 ≤ size / hashBytes
  fits : size / hashBytes + threads ≤ 2 ^ 32
  threads_pos : 0 < threads

namespace Sizes

variable {size threads : Nat} (h : Sizes size threads)
include h

theorem size_eq : size = hashBytes * (size / hashBytes) := by
  have := h.rows
  unfold mixBytes at this
  unfold hashBytes
  omega

theorem items_lt : size / hashBytes < 2 ^ 32 := by
  have := h.fits
  have := h.threads_pos
  omega

theorem size_lt : size < 2 ^ 38 := by
  have := h.items_lt
  have := h.size_eq
  unfold hashBytes at *
  omega

theorem toNat_items_eq : (items size).toNat = size / hashBytes :=
  toNat_items (by have := h.size_lt; omega) h.items_lt

theorem percent_ne_zero : percent size ≠ 0 := by
  intro h0
  have hp : (percent size).toNat = size / hashBytes / 100 :=
    toNat_percent (by have := h.size_lt; omega) h.items_lt
  rw [h0, UInt32.toNat_zero] at hp
  have := h.many
  omega

/-- `batch` is `⌈items / threads⌉`: the batches cover the items, and one more
item per goroutine bounds them. -/
theorem batch_cover : size / hashBytes ≤ threads * (batch size threads).toNat ∧
    threads * (batch size threads).toNat < size / hashBytes + threads := by
  have hT := h.threads_pos
  have hN := h.size_eq
  have hfits := h.fits
  have hprod : 0 < hashBytes * threads := Nat.mul_pos (by decide) hT
  -- the quotient in `uint64`, before it is cut to `uint32`
  have hq : (size + hashBytes * threads - 1) / (hashBytes * threads) ≤ size / hashBytes := by
    have hNT : size / hashBytes ≤ size / hashBytes * threads := Nat.le_mul_of_pos_right _ hT
    have hmul : hashBytes * threads * (size / hashBytes) = hashBytes * (size / hashBytes * threads) := by
      ring
    rw [Nat.div_le_iff_le_mul_add_pred hprod, hmul]
    unfold hashBytes at *
    omega
  have hb : (batch size threads).toNat = (size + hashBytes * threads - 1) / (hashBytes * threads) :=
    toNat_batch (by unfold hashBytes at *; omega) hT (by omega)
  rw [hb]
  set q := (size + hashBytes * threads - 1) / (hashBytes * threads)
  have hlo : q * (hashBytes * threads) ≤ size + hashBytes * threads - 1 := Nat.div_mul_le_self _ _
  have hhi : size + hashBytes * threads - 1 < q * (hashBytes * threads) + hashBytes * threads :=
    Nat.lt_div_mul_add hprod
  have hqt : q * (hashBytes * threads) = hashBytes * (threads * q) := by ring
  rw [hqt] at hlo hhi
  unfold hashBytes at *
  omega

/-- Goroutine `id` starts at `id * batch`. -/
theorem toNat_first {id : Nat} (hid : id < threads) :
    (first size threads id).toNat = id * (batch size threads).toNat := by
  have ⟨_, hlt⟩ := h.batch_cover
  have hfits := h.fits
  have hle : id * (batch size threads).toNat ≤ threads * (batch size threads).toNat :=
    Nat.mul_le_mul_right _ hid.le
  have hid' : id < UInt32.size := by
    have hT32 : threads ≤ 2 ^ 32 := le_trans (Nat.le_add_left _ _) hfits
    unfold UInt32.size
    omega
  rw [first, UInt32.toNat_mul, UInt32.toNat_ofNat_of_lt' hid', Nat.mod_eq_of_lt (by omega)]

/-- Goroutine `id` stops before `min ((id + 1) * batch) items`. -/
theorem toNat_limit {id : Nat} (hid : id < threads) :
    (limit size threads id).toNat = min ((id + 1) * (batch size threads).toNat) (size / hashBytes) := by
  have ⟨_, hlt⟩ := h.batch_cover
  have hfits := h.fits
  have hle : (id + 1) * (batch size threads).toNat ≤ threads * (batch size threads).toNat :=
    Nat.mul_le_mul_right _ hid
  have hsum : (first size threads id + batch size threads).toNat = (id + 1) * (batch size threads).toNat := by
    rw [UInt32.toNat_add, h.toNat_first hid, Nat.mod_eq_of_lt (by rw [Nat.succ_mul] at hle; omega),
      Nat.succ_mul]
  unfold limit
  dsimp only
  split
  case isTrue hgt =>
    rw [gt_iff_lt, UInt32.lt_iff_toNat_lt, hsum, h.toNat_items_eq] at hgt
    rw [h.toNat_items_eq]
    omega
  case isFalse hle' =>
    rw [gt_iff_lt, UInt32.lt_iff_toNat_lt, hsum, h.toNat_items_eq] at hle'
    rw [hsum]
    omega

/-- Every item lies in the batch of the goroutine `item / batch`. -/
theorem mem_batch {i : Nat} (hi : i < size / hashBytes) :
    ∃ id < threads, (first size threads id).toNat ≤ i ∧ i < (limit size threads id).toNat := by
  have ⟨hcover, _⟩ := h.batch_cover
  have hpos : 0 < (batch size threads).toNat := by
    refine Nat.pos_of_ne_zero fun h0 => ?_
    rw [h0, Nat.mul_zero] at hcover
    omega
  have hid : i / (batch size threads).toNat < threads :=
    (Nat.div_lt_iff_lt_mul hpos).2 (by omega)
  refine ⟨_, hid, ?_, ?_⟩
  · rw [h.toNat_first hid]
    exact Nat.div_mul_le_self _ _
  · rw [h.toNat_limit hid, lt_min_iff]
    have := Nat.lt_div_mul_add (a := i) hpos
    rw [Nat.succ_mul]
    exact ⟨this, hi⟩

/-- `hashBytes * threads` does not wrap to zero in `uint64`. -/
theorem divisor_ne_zero : UInt64.ofNat hashBytes * UInt64.ofNat threads ≠ 0 := by
  intro h0
  have hT := h.threads_pos
  have hT' : threads < 2 ^ 32 := by
    have := h.fits
    have := h.many
    omega
  have := congrArg UInt64.toNat h0
  rw [UInt64.toNat_mul, UInt64.toNat_ofNat_of_lt' (by decide : hashBytes < 2 ^ 64),
    UInt64.toNat_ofNat_of_lt' (by omega : threads < 2 ^ 64), UInt64.toNat_zero] at this
  unfold hashBytes at this
  omega

end Sizes

/-! ## One iteration, and runs of them -/

section

variable {size threads : Nat} {hs : Hasher} {cache : List UInt32}

/-- An item is 64 bytes, the digest of Keccak-512. -/
theorem length_of_generateDatasetItem {index : UInt32} {item : Bytes}
    (h : generateDatasetItem hs cache index = .ok item) : item.length = hashBytes := by
  unfold generateDatasetItem at h
  dsimp only at h
  split at h
  case isTrue => cases h
  case isFalse =>
    cases h
    exact hs.length_keccak512 _

/-- With at least one cache row, and fewer rows than `uint32` wraps at, every
item is generated. -/
theorem generateDatasetItem_ok (hrows : 0 < cache.length / hashWords)
    (hrows' : cache.length / hashWords < 2 ^ 32) (index : UInt32) :
    ∃ item, generateDatasetItem hs cache index = .ok item := by
  have hne : UInt32.ofNat (cache.length / hashWords) ≠ 0 := by
    intro h0
    have := congrArg UInt32.toNat h0
    rw [UInt32.toNat_ofNat_of_lt' (by unfold UInt32.size; omega), UInt32.toNat_zero] at this
    omega
  unfold generateDatasetItem
  rw [if_neg hne]
  exact ⟨_, rfl⟩

/-- What one iteration of goroutine `id` can do: generate the item at its loop
index, copy it to the index's offset and move on, or, past its batch, nothing. -/
theorem generateStep_eq_ok {g g' : Generators} {id : Nat}
    (h : generateStep size threads hs cache g id = .ok g') :
    (g.index id < limit size threads id ∧ ∃ item, generateDatasetItem hs cache (g.index id) = .ok item ∧
      g' = { dataset := copyAt size g.dataset (g.index id * UInt32.ofNat hashBytes).toNat item,
             progress := g.progress + 1,
             index := Function.update g.index id (g.index id + 1) }) ∨
    (¬ g.index id < limit size threads id ∧ g' = g) := by
  unfold generateStep at h
  dsimp only at h
  split at h
  case isTrue hl =>
    obtain ⟨item, hitem, h⟩ := Outcome.bind_eq_ok.1 h
    split at h
    case isTrue => cases h
    case isFalse =>
      split at h
      case isTrue => cases h
      case isFalse => exact .inl ⟨hl, item, hitem, (Outcome.ok.inj h).symm⟩
  case isFalse hl => exact .inr ⟨hl, (Outcome.ok.inj h).symm⟩

/-- On the sizes `Sizes` names, an iteration whose item is generated never
panics: the offset of an item below the item count is inside the dataset. -/
theorem generateStep_returns (hsz : Sizes size threads)
    (hitem : ∀ index, ∃ item, generateDatasetItem hs cache index = .ok item) (g : Generators) (id : Nat) :
    ∃ g', generateStep size threads hs cache g id = .ok g' := by
  unfold generateStep
  dsimp only
  split
  case isTrue hl =>
    obtain ⟨item, hit⟩ := hitem (g.index id)
    rw [hit, Outcome.bind_ok]
    have hidx : (g.index id).toNat < size / hashBytes := by
      have hlt := UInt32.lt_of_lt_of_le hl (limit_le_items id)
      rwa [UInt32.lt_iff_toNat_lt, hsz.toNat_items_eq] at hlt
    have hoff : ¬ size < (g.index id * UInt32.ofNat hashBytes).toNat := by
      have hmod := Nat.mod_le ((g.index id).toNat * (UInt32.ofNat hashBytes).toNat) (2 ^ 32)
      have hN := hsz.size_eq
      have h64 : (UInt32.ofNat hashBytes).toNat = hashBytes := rfl
      rw [UInt32.toNat_mul, h64]
      rw [h64] at hmod
      unfold hashBytes at *
      omega
    rw [if_neg hoff, if_neg hsz.percent_ne_zero]
    exact ⟨_, rfl⟩
  case isFalse => exact ⟨g, rfl⟩

/-- The loop index of goroutine `id` after an iteration of goroutine `id₀`: one
further on if it was that goroutine's and inside its batch. -/
theorem index_generateStep {g g' : Generators} {id₀ : Nat}
    (h : generateStep size threads hs cache g id₀ = .ok g') (id : Nat) :
    (g'.index id).toNat =
      if id = id₀ ∧ g.index id < limit size threads id then (g.index id).toNat + 1 else (g.index id).toNat := by
  rcases generateStep_eq_ok h with ⟨hl, item, -, rfl⟩ | ⟨hl, rfl⟩
  · by_cases hid : id = id₀
    case pos =>
      subst hid
      have hlt : (g.index id).toNat + 1 < 2 ^ 32 := by
        have := UInt32.toNat_lt (limit size threads id)
        rw [UInt32.lt_iff_toNat_lt] at hl
        omega
      simp only [Function.update_self, UInt32.toNat_add, UInt32.toNat_one, Nat.mod_eq_of_lt hlt, hl,
        and_self, if_true]
    case neg => simp only [Function.update_of_ne hid, hid, false_and, if_false]
  · by_cases hid : id = id₀
    case pos =>
      subst hid
      simp only [hl, and_false, if_false]
    case neg => simp only [hid, false_and, if_false]

/-- A property every iteration keeps holds after every run. -/
theorem runGenerators_inv {P : Generators → Prop}
    (hstep : ∀ g g' (id : Fin threads), P g → generateStep size threads hs cache g id = .ok g' → P g') :
    ∀ {schedule : List (Fin threads)} {g g' : Generators}, P g →
      runGenerators size threads hs cache schedule g = .ok g' → P g'
  | [], g, g', hg, h => by
    rw [runGenerators] at h
    cases h
    exact hg
  | id :: schedule, g, g', hg, h => by
    rw [runGenerators] at h
    obtain ⟨g₁, h₁, hrest⟩ := Outcome.bind_eq_ok.1 h
    exact runGenerators_inv hstep (hstep g g₁ id hg h₁) hrest

/-- A run of iterations that all return returns. -/
theorem runGenerators_returns
    (hstep : ∀ g (id : Fin threads), ∃ g', generateStep size threads hs cache g id = .ok g') :
    ∀ (schedule : List (Fin threads)) (g : Generators),
      ∃ g', runGenerators size threads hs cache schedule g = .ok g'
  | [], g => ⟨g, rfl⟩
  | id :: schedule, g => by
    obtain ⟨g₁, h₁⟩ := hstep g id
    obtain ⟨g', h'⟩ := runGenerators_returns hstep schedule g₁
    exact ⟨g', by rw [runGenerators, h₁, Outcome.bind_ok, h']⟩

/-- Goroutine `id`'s loop index moves one item on at each of its iterations
until it reaches the goroutine's limit. -/
theorem index_runGenerators (id : Fin threads) :
    ∀ {schedule : List (Fin threads)} {g g' : Generators},
      runGenerators size threads hs cache schedule g = .ok g' →
      min (limit size threads id).toNat ((g.index id).toNat + schedule.count id) ≤ (g'.index id).toNat
  | [], g, g', h => by
    rw [runGenerators] at h
    cases h
    simp
  | id₀ :: schedule, g, g', h => by
    rw [runGenerators] at h
    obtain ⟨g₁, h₁, hrest⟩ := Outcome.bind_eq_ok.1 h
    have ih := index_runGenerators id hrest
    have hidx := index_generateStep h₁ id
    rw [List.count_cons]
    by_cases hid : id₀ = id
    case pos =>
      subst hid
      simp only [beq_self_eq_true, if_true]
      simp only [true_and, UInt32.lt_iff_toNat_lt] at hidx
      split at hidx <;> omega
    case neg =>
      have hne : (id : Nat) ≠ id₀ := fun h => hid (Fin.ext h).symm
      simp only [hne, false_and, if_false] at hidx
      simp only [beq_iff_eq, hid, if_false, Nat.add_zero]
      omega

end

/-! ## What the goroutines have generated -/

section

variable (size threads : Nat)

/-- Item `i` is generated: it lies in the batch of a goroutine whose loop index
has passed it. -/
def Generated (g : Generators) (i : Nat) : Prop :=
  ∃ id < threads, (first size threads id).toNat ≤ i ∧ i < (g.index id).toNat

/-- Every goroutine's loop index is at or past the first item of its batch. -/
def Started (g : Generators) : Prop :=
  ∀ id < threads, (first size threads id).toNat ≤ (g.index id).toNat

/-- Every byte below `2^32` of a generated item holds the item's byte. An
item whose offset wraps is copied over an earlier item's place, so the
property survives those copies only where the two items are equal
(`hwrap` below). -/
def FilledBelow (item : UInt32 → Bytes) (g : Generators) : Prop :=
  ∀ j < size, j < 2 ^ 32 → Generated size threads g (j / hashBytes) →
    g.dataset j = (item (UInt32.ofNat (j / hashBytes))).getD (j % hashBytes) 0

/-- Nothing is written at or past byte `2^32`. -/
def Below (g : Generators) : Prop := ∀ j, 2 ^ 32 ≤ j → g.dataset j = 0

end

section

variable {size threads : Nat} {hs : Hasher} {cache : List UInt32} {g g' : Generators} {id₀ : Nat}

theorem started_start : Started size threads (Generators.start size threads) := fun _ _ => le_rfl

theorem started_generateStep (h : generateStep size threads hs cache g id₀ = .ok g')
    (hg : Started size threads g) : Started size threads g' := by
  intro id hid
  have := hg id hid
  rw [index_generateStep h]
  split <;> omega

/-- An iteration adds the item at its loop index to what is generated, if the
index is inside its batch, and nothing else. -/
theorem generated_generateStep (hg : Started size threads g) (hid₀ : id₀ < threads)
    (h : generateStep size threads hs cache g id₀ = .ok g') (i : Nat) :
    Generated size threads g' i ↔
      Generated size threads g i ∨ (g.index id₀ < limit size threads id₀ ∧ i = (g.index id₀).toNat) := by
  unfold Generated
  simp only [index_generateStep h]
  constructor
  · rintro ⟨id, hid, hfirst, hi⟩
    split at hi
    case isTrue hcase =>
      obtain ⟨rfl, hl⟩ := hcase
      by_cases hlt : i < (g.index id).toNat
      case pos => exact .inl ⟨id, hid, hfirst, hlt⟩
      case neg => exact .inr ⟨hl, by omega⟩
    case isFalse => exact .inl ⟨id, hid, hfirst, hi⟩
  · rintro (⟨id, hid, hfirst, hi⟩ | ⟨hl, rfl⟩)
    · refine ⟨id, hid, hfirst, ?_⟩
      split <;> omega
    · refine ⟨id₀, hid₀, hg id₀ hid₀, ?_⟩
      rw [if_pos ⟨rfl, hl⟩]
      omega

/-- `copy(dataset[off:], item)` changes exactly the bytes from `off` that the
item covers. -/
theorem copyAt_apply {d : Nat → UInt8} {off j : Nat} {item : Bytes} :
    copyAt size d off item j = if off ≤ j ∧ j < size ∧ j - off < item.length then item.getD (j - off) 0 else d j :=
  rfl

/-- The offset `index * hashBytes`, computed in `uint32`, is that of the item
`2^26` below when `index` is past `2^26`. -/
theorem toNat_offset (index : UInt32) :
    (index * UInt32.ofNat hashBytes).toNat = index.toNat % 2 ^ 26 * hashBytes := by
  have h64 : (UInt32.ofNat hashBytes).toNat = hashBytes := rfl
  rw [UInt32.toNat_mul, h64]
  unfold hashBytes
  omega

/-- An item copied at the offset of `index` covers the bytes of place
`index % 2^26` inside the dataset, each with the item's byte at its position
in the place. -/
theorem copyAt_item {d : Nat → UInt8} {index : UInt32} {it : Bytes} (hlen : it.length = hashBytes) (j : Nat) :
    copyAt size d (index * UInt32.ofNat hashBytes).toNat it j =
      if j / hashBytes = index.toNat % 2 ^ 26 ∧ j < size then it.getD (j % hashBytes) 0 else d j := by
  rw [copyAt_apply, toNat_offset, hlen]
  by_cases hin : j / hashBytes = index.toNat % 2 ^ 26 ∧ j < size
  case pos =>
    obtain ⟨hplace, hj⟩ := hin
    rw [if_pos (by unfold hashBytes at hplace ⊢; omega), if_pos ⟨hplace, hj⟩]
    congr 1
    unfold hashBytes at hplace ⊢
    omega
  case neg =>
    rw [if_neg, if_neg hin]
    rintro ⟨hlo, hj, hhi⟩
    exact hin ⟨by unfold hashBytes at hlo hhi ⊢; omega, hj⟩

/-- No iteration writes at or past byte `2^32`: the offset is below `2^32` and
a multiple of the item size. -/
theorem below_generateStep (h : generateStep size threads hs cache g id₀ = .ok g')
    (hb : Below g) : Below g' := by
  intro j hj
  rcases generateStep_eq_ok h with ⟨-, item, hitem, rfl⟩ | ⟨-, rfl⟩
  · have hlt := Nat.mod_lt (g.index id₀).toNat (by decide : 0 < 2 ^ 26)
    show copyAt size g.dataset _ _ j = 0
    rw [copyAt_item (length_of_generateDatasetItem hitem), if_neg (by unfold hashBytes; omega)]
    exact hb j hj
  · exact hb j hj

variable {item : UInt32 → Bytes}

/-- Each iteration keeps the generated bytes below `2^32` those of their items,
when an item whose offset wraps equals the item it is copied over. -/
theorem filledBelow_generateStep (hid₀ : id₀ < threads)
    (hitem : ∀ index, generateDatasetItem hs cache index = .ok (item index))
    (hwrap : ∀ index, index < items size → item index = item (UInt32.ofNat (index.toNat % 2 ^ 26)))
    (h : generateStep size threads hs cache g id₀ = .ok g')
    (hg : Started size threads g) (hf : FilledBelow size threads item g) : FilledBelow size threads item g' := by
  intro j hj h32 hgen
  rw [generated_generateStep hg hid₀ h] at hgen
  rcases generateStep_eq_ok h with ⟨hl, it, hit, rfl⟩ | ⟨hl, rfl⟩
  · rw [hitem, Outcome.ok.injEq] at hit
    subst hit
    show copyAt size g.dataset _ _ j = _
    rw [copyAt_item (length_of_generateDatasetItem (hitem (g.index id₀)))]
    by_cases hin : j / hashBytes = (g.index id₀).toNat % 2 ^ 26
    case pos =>
      -- the byte is in the copied item, which is the item of its place
      rw [if_pos ⟨hin, hj⟩, hin, ← hwrap _ (UInt32.lt_of_lt_of_le hl (limit_le_items id₀))]
    case neg =>
      rw [if_neg fun h => hin h.1]
      refine hf j hj h32 (hgen.resolve_right ?_)
      rintro ⟨-, hi⟩
      have hlt := Nat.mod_lt (g.index id₀).toNat (by decide : 0 < 2 ^ 26)
      unfold hashBytes at hin hi
      omega
  · exact hf j hj h32 (hgen.resolve_right fun ⟨hl', _⟩ => hl hl')

/-- A schedule that runs each goroutine to the end of its batch generates
every item. -/
theorem generated_of_complete (hsz : Sizes size threads) {schedule : List (Fin threads)}
    (hc : Complete size threads schedule)
    (hrun : runGenerators size threads hs cache schedule (Generators.start size threads) = .ok g)
    {i : Nat} (hi : i < size / hashBytes) : Generated size threads g i := by
  obtain ⟨id, hid, hfirst, hlimit⟩ := hsz.mem_batch hi
  have hmove := index_runGenerators ⟨id, hid⟩ hrun
  have hcount := hc ⟨id, hid⟩
  simp only [Generators.start] at hmove hcount
  exact ⟨id, hid, hfirst, by omega⟩

end

/-! ## Reading the items back -/

section

variable {size : Nat}

/-- When byte `j` of the dataset is byte `j % 64` of block `j / 64`, the 16
words from a block's offset are the block's words. -/
theorem datasetWords_block {d : Nat → UInt8} (blk : Nat → Bytes)
    (hd : ∀ j < size, d j = (blk (j / hashBytes)).getD (j % hashBytes) 0) {i : Nat} (hi : i < size / hashBytes) :
    ((datasetWords size d).drop (i * hashWords)).take hashWords = words (blk i) hashWords := by
  have hlen : i * hashWords + hashWords ≤ size / 4 := by
    unfold hashWords hashBytes at *
    omega
  apply List.ext_getElem
  · simp only [datasetWords, words, List.length_take, List.length_drop, List.length_map, List.length_range]
    omega
  · intro k hk₁ hk₂
    have hk : k < 16 := by simpa [words, hashWords] using hk₂
    -- the four bytes of word `k` are bytes `4k` to `4k + 3` of block `i`
    have hbyte : ∀ m < 4, d (4 * (i * hashWords + k) + m) = (blk i).getD (k * 4 + m) 0 := by
      intro m hm
      rw [hd _ (by unfold hashWords hashBytes at *; omega)]
      congr 2 <;> (unfold hashWords hashBytes; omega)
    have h0 := hbyte 0 (by decide)
    rw [Nat.add_zero, Nat.add_zero] at h0
    simp only [datasetWords, words, le32, List.getElem_take, List.getElem_drop, List.getElem_map,
      List.getElem_range]
    rw [h0, hbyte 1 (by decide), hbyte 2 (by decide), hbyte 3 (by decide)]

/-- `hashimoto` asks only for items below twice its row count. -/
theorem hashimoto_congr {hs : Hasher} {hash : Bytes} {nonce : UInt64}
    {lookup₁ lookup₂ : UInt32 → Outcome PEmpty (List UInt32)}
    (h : ∀ index : UInt32, index.toNat < 2 * ((UInt64.ofNat size / UInt64.ofNat mixBytes).toUInt32).toNat →
      lookup₁ index = lookup₂ index) :
    hashimoto hs hash nonce size lookup₁ = hashimoto hs hash nonce size lookup₂ := by
  unfold hashimoto
  dsimp only
  split
  case isTrue => rfl
  case isFalse hrows =>
    have hpos : 0 < ((UInt64.ofNat size / UInt64.ofNat mixBytes).toUInt32).toNat :=
      Nat.pos_of_ne_zero fun h0 => hrows (UInt32.toNat_inj.1 (h0.trans UInt32.toNat_zero.symm))
    -- the loop's steps differ only in their lookups, at `2 * parent + j` for `j < 2`
    congr 2
    funext mix i
    congr 1
    apply Outcome.flatMapM_congr
    intro j hj
    apply h
    have hj' : j < 2 := List.mem_range.1 hj
    set rows := (UInt64.ofNat size / UInt64.ofNat mixBytes).toUInt32
    set x := fnv (UInt32.ofNat i ^^^ le32 (hs.keccak512 ((hash ++ List.replicate 32 0).take 32 ++ putLE64 nonce)) 0)
      (mix.getD (i % mix.length) 0)
    have hmod : (x % rows).toNat < rows.toNat := by
      rw [UInt32.toNat_mod]
      exact Nat.mod_lt _ hpos
    have htwo : (2 : UInt32).toNat = 2 := rfl
    rw [UInt32.toNat_add, UInt32.toNat_mul, htwo, UInt32.toNat_ofNat_of_lt' (by unfold UInt32.size; omega)]
    omega

/-- Over a dataset whose bytes are those of the blocks, `hashimotoFull` reads
the words of block `index` at index `index`. The offsets `index * 16` are exact
below 16 GiB. -/
theorem hashimotoFull_datasetWords {d : Nat → UInt8} (blk : Nat → Bytes) (hrows : size % mixBytes = 0)
    (h34 : size < 2 ^ 34) (hd : ∀ j < size, d j = (blk (j / hashBytes)).getD (j % hashBytes) 0)
    (hs : Hasher) (hash : Bytes) (nonce : UInt64) :
    hashimotoFull hs (datasetWords size d) hash nonce =
      hashimoto hs hash nonce size fun index => .ok (words (blk index.toNat) hashWords) := by
  have hlen : (datasetWords size d).length * 4 = size := by
    simp only [datasetWords, List.length_map, List.length_range]
    unfold mixBytes at hrows
    omega
  unfold hashimotoFull
  rw [hlen]
  apply hashimoto_congr
  intro index hindex
  -- the row count is `size / 128`, so the index is below the item count
  have hrows' : ((UInt64.ofNat size / UInt64.ofNat mixBytes).toUInt32).toNat = size / mixBytes := by
    rw [UInt64.toNat_toUInt32, UInt64.toNat_div, UInt64.toNat_ofNat_of_lt' (by unfold UInt64.size; omega),
      UInt64.toNat_ofNat_of_lt' (by decide : mixBytes < 2 ^ 64), Nat.mod_eq_of_lt (by unfold mixBytes; omega)]
  rw [hrows'] at hindex
  have hi : index.toNat < size / hashBytes := by
    unfold mixBytes hashBytes at *
    omega
  have h16 : (UInt32.ofNat hashWords).toNat = hashWords := rfl
  have hoff : (index * UInt32.ofNat hashWords).toNat = index.toNat * hashWords := by
    rw [UInt32.toNat_mul, h16, Nat.mod_eq_of_lt (by unfold hashWords hashBytes at *; omega)]
  have hhigh : (index * UInt32.ofNat hashWords + UInt32.ofNat hashWords).toNat = index.toNat * hashWords + hashWords := by
    rw [UInt32.toNat_add, hoff, h16, Nat.mod_eq_of_lt (by unfold hashWords hashBytes at *; omega)]
  dsimp only
  rw [if_neg (by
    rw [UInt32.lt_iff_toNat_lt, hhigh, hoff, datasetWords, List.length_map, List.length_range]
    unfold hashWords hashBytes at *
    omega), hoff, datasetWords_block blk hd hi]

/-- `hashimotoLight` reads the words of the item it generates. -/
theorem hashimotoLight_eq {hs : Hasher} {cache : List UInt32} {item : UInt32 → Bytes}
    (hitem : ∀ index, generateDatasetItem hs cache index = .ok (item index)) (hash : Bytes) (nonce : UInt64) :
    hashimotoLight hs size cache hash nonce =
      hashimoto hs hash nonce size fun index => .ok (words (item index) hashWords) := by
  unfold hashimotoLight
  congr 1
  funext index
  rw [hitem, Outcome.map_ok, length_of_generateDatasetItem (hitem index)]
  rfl

end

/-! ## Light and full agree up to 4 GiB -/

section

variable {size threads : Nat} {hs : Hasher} {cache : List UInt32} {item : UInt32 → Bytes}
  {schedule : List (Fin threads)} {g : Generators}

theorem filledBelow_start (item : UInt32 → Bytes) :
    FilledBelow size threads item (Generators.start size threads) := by
  rintro j - - ⟨id, -, hfirst, hlt⟩
  simp only [Generators.start] at hlt
  omega

/-- After a complete run, every byte below `2^32` holds the byte of its item,
when an item whose offset wraps equals the item it is copied over. -/
theorem bytes_of_complete (hsz : Sizes size threads) (hc : Complete size threads schedule)
    (hitem : ∀ index, generateDatasetItem hs cache index = .ok (item index))
    (hwrap : ∀ index, index < items size → item index = item (UInt32.ofNat (index.toNat % 2 ^ 26)))
    (hrun : runGenerators size threads hs cache schedule (Generators.start size threads) = .ok g) :
    ∀ j < size, j < 2 ^ 32 → g.dataset j = (item (UInt32.ofNat (j / hashBytes))).getD (j % hashBytes) 0 := by
  have hinv : Started size threads g ∧ FilledBelow size threads item g :=
    runGenerators_inv (P := fun g => Started size threads g ∧ FilledBelow size threads item g)
      (fun _ _ id hg h => ⟨started_generateStep h hg.1, filledBelow_generateStep id.isLt hitem hwrap h hg.1 hg.2⟩)
      ⟨started_start, filledBelow_start item⟩ hrun
  intro j hj h32
  have hN := hsz.size_eq
  exact hinv.2 j hj h32 (generated_of_complete hsz hc hrun (by unfold hashBytes at *; omega))

/-- On the sizes `Sizes` names, with every item generated, `generateDataset`
returns the words of the goroutines' bytes, whatever the schedule. -/
theorem generateDataset_eq (hsz : Sizes size threads)
    (hitem : ∀ index, generateDatasetItem hs cache index = .ok (item index)) (schedule : List (Fin threads)) :
    ∃ g, runGenerators size threads hs cache schedule (Generators.start size threads) = .ok g ∧
      generateDataset size threads hs cache schedule = .ok (datasetWords size g.dataset) := by
  obtain ⟨g, hrun⟩ := runGenerators_returns
    (fun g id => generateStep_returns hsz (fun index => ⟨_, hitem index⟩) g id) schedule (Generators.start size threads)
  refine ⟨g, hrun, ?_⟩
  rw [generateDataset, if_neg fun h => hsz.divisor_ne_zero h.2, hrun, Outcome.map_ok]

/-- For every dataset size of `Sizes` up to 4 GiB, every cache with at least
one row, every number of goroutines and every interleaving that runs each to
the end of its batch: `generateDataset` returns a dataset holding the words of
every item at its place, and `hashimotoFull` over it returns what
`hashimotoLight` over the cache returns, for every header hash and nonce. -/
theorem hashimotoFull_generateDataset (hsz : Sizes size threads) (h4 : size ≤ 2 ^ 32)
    (hrows : 0 < cache.length / hashWords) (hrows' : cache.length / hashWords < 2 ^ 32)
    (hc : Complete size threads schedule) :
    ∃ dataset, generateDataset size threads hs cache schedule = .ok dataset ∧
      (∀ index : UInt32, index.toNat < size / hashBytes →
        (generateDatasetItem hs cache index).map (fun item => words item hashWords) =
          .ok ((dataset.drop (index.toNat * hashWords)).take hashWords)) ∧
      ∀ hash nonce, hashimotoFull hs dataset hash nonce = hashimotoLight hs size cache hash nonce := by
  have hex : ∀ index, ∃ item, generateDatasetItem hs cache index = .ok item := generateDatasetItem_ok hrows hrows'
  choose item hitem using hex
  obtain ⟨g, hrun, hgen⟩ := generateDataset_eq hsz hitem schedule
  -- below 4 GiB no offset wraps
  have hwrap : ∀ index, index < items size → item index = item (UInt32.ofNat (index.toNat % 2 ^ 26)) := by
    intro index hindex
    rw [UInt32.lt_iff_toNat_lt, hsz.toNat_items_eq] at hindex
    rw [Nat.mod_eq_of_lt (by unfold hashBytes at hindex; omega), UInt32.ofNat_toNat]
  have hbytes : ∀ j < size, g.dataset j = (item (UInt32.ofNat (j / hashBytes))).getD (j % hashBytes) 0 :=
    fun j hj => bytes_of_complete hsz hc hitem hwrap hrun j hj (by omega)
  refine ⟨_, hgen, fun index hindex => ?_, fun hash nonce => ?_⟩
  · rw [hitem, Outcome.map_ok, datasetWords_block (fun i => item (UInt32.ofNat i)) hbytes hindex,
      UInt32.ofNat_toNat]
  · rw [hashimotoFull_datasetWords (fun i => item (UInt32.ofNat i)) hsz.rows (by omega) hbytes,
      hashimotoLight_eq hitem]
    simp only [UInt32.ofNat_toNat]

end

/-- Keccak-256 and Keccak-512 replaced by functions that return ones: every
item is 64 ones, whatever its index. -/
def onesHasher : Hasher :=
  ⟨fun _ => List.replicate 32 1, fun _ => List.replicate 64 1, fun _ => List.length_replicate,
    fun _ => List.length_replicate⟩

/-- 100 items on one goroutine. -/
theorem hashimotoFull_generateDataset_hundred_items :
    Sizes 6400 1 ∧ 6400 ≤ 2 ^ 32 ∧ 0 < (List.replicate 16 (0 : UInt32)).length / hashWords ∧
      (List.replicate 16 (0 : UInt32)).length / hashWords < 2 ^ 32 ∧ Complete 6400 1 (List.replicate 100 0) ∧
      ∃ dataset, generateDataset 6400 1 onesHasher (List.replicate 16 0) (List.replicate 100 0) = .ok dataset ∧
        (∀ index : UInt32, index.toNat < 6400 / hashBytes →
          (generateDatasetItem onesHasher (List.replicate 16 0) index).map (fun item => words item hashWords) =
            .ok ((dataset.drop (index.toNat * hashWords)).take hashWords)) ∧
        ∀ hash nonce, hashimotoFull onesHasher dataset hash nonce =
          hashimotoLight onesHasher 6400 (List.replicate 16 0) hash nonce :=
  have hsz : Sizes 6400 1 := ⟨by decide, by decide, by decide, by decide⟩
  have hc : Complete 6400 1 (List.replicate 100 0) := fun id => by
    rw [Subsingleton.elim id 0, List.count_replicate_self]
    decide
  ⟨hsz, by decide, by decide, by decide, hc,
    hashimotoFull_generateDataset hsz (by decide) (by decide) (by decide) hc⟩

/-! ## Past 4 GiB -/

section

variable {size threads : Nat} {cache : List UInt32}

theorem generateDatasetItem_onesHasher (hrows : 0 < cache.length / hashWords)
    (hrows' : cache.length / hashWords < 2 ^ 32) (index : UInt32) :
    generateDatasetItem onesHasher cache index = .ok (List.replicate 64 1) := by
  obtain ⟨item, hitem⟩ : ∃ item, generateDatasetItem onesHasher cache index = .ok item :=
    generateDatasetItem_ok hrows hrows' index
  have hones : item = List.replicate 64 1 := by
    unfold generateDatasetItem at hitem
    dsimp only at hitem
    split at hitem
    case isTrue => cases hitem
    case isFalse => exact (Outcome.ok.inj hitem).symm
  rw [hitem, hones]

/-- The seed Keccak-512 of the ones hasher computes, and so the whole mix, does
not depend on the header hash or the nonce. -/
theorem hashimoto_onesHasher (hash : Bytes) (nonce : UInt64) (size : Nat)
    (lookup : UInt32 → Outcome PEmpty (List UInt32)) :
    hashimoto onesHasher hash nonce size lookup = hashimoto onesHasher [] 0 size lookup :=
  rfl

/-- With every item 64 ones, a complete run leaves ones below byte `2^32`
and zeros from there on. -/
theorem bytes_onesHasher (hsz : Sizes size threads) {schedule : List (Fin threads)}
    (hc : Complete size threads schedule) (hrows : 0 < cache.length / hashWords)
    (hrows' : cache.length / hashWords < 2 ^ 32) {g : Generators}
    (hrun : runGenerators size threads onesHasher cache schedule (Generators.start size threads) = .ok g) :
    ∀ j < size, g.dataset j =
      ((fun i => if i < 2 ^ 26 then List.replicate 64 1 else List.replicate 64 0) (j / hashBytes)).getD
        (j % hashBytes) 0 := by
  have hitem := generateDatasetItem_onesHasher hrows hrows'
  have hbelow : Below g :=
    runGenerators_inv (fun _ _ _ hg h => below_generateStep h hg) (fun _ _ => rfl) hrun
  intro j hj
  dsimp only
  by_cases h32 : j < 2 ^ 32
  case pos =>
    rw [bytes_of_complete hsz hc hitem (fun _ _ => rfl) hrun j hj h32, if_pos (by unfold hashBytes; omega)]
  case neg =>
    rw [hbelow j (by omega), if_neg (by unfold hashBytes; omega), List.getD_eq_getElem?_getD,
      List.getElem?_replicate]
    split <;> rfl

end

/-- At the 4303349632 bytes the table gives the dataset of epoch 385, for
hashes that return ones, every number of goroutines, every interleaving that
runs each to the end of its batch, every cache with at least one row, and
every header hash and nonce: `hashimotoFull` over the dataset `generateDataset`
returns differs from `hashimotoLight`. The offsets of the items from `2^26` on
wrap, the dataset's words from `2^30` on stay zero, and the eleventh access of
the mixing loop reads item 67190528. -/
theorem hashimotoFull_differs_past_4GiB {threads : Nat} (hsz : Sizes 4303349632 threads)
    {cache : List UInt32} (hrows : 0 < cache.length / hashWords) (hrows' : cache.length / hashWords < 2 ^ 32)
    {schedule : List (Fin threads)} (hc : Complete 4303349632 threads schedule) (hash : Bytes) (nonce : UInt64) :
    ∃ dataset, generateDataset 4303349632 threads onesHasher cache schedule = .ok dataset ∧
      hashimotoFull onesHasher dataset hash nonce ≠ hashimotoLight onesHasher 4303349632 cache hash nonce := by
  have hitem := generateDatasetItem_onesHasher hrows hrows'
  obtain ⟨g, hrun, hgen⟩ := generateDataset_eq hsz hitem schedule
  refine ⟨_, hgen, ?_⟩
  rw [hashimotoFull_datasetWords (fun i => if i < 2 ^ 26 then List.replicate 64 1 else List.replicate 64 0)
      hsz.rows (by decide) (bytes_onesHasher hsz hc hrows hrows' hrun),
    hashimotoLight_eq hitem]
  rw [hashimoto_onesHasher hash nonce, hashimoto_onesHasher hash nonce]
  decide +kernel

/-- One goroutine over the dataset of epoch 385, a cache of one row, the
zero header hash and nonce. -/
theorem hashimotoFull_differs_past_4GiB_one_goroutine :
    Sizes 4303349632 1 ∧ 0 < (List.replicate 16 (0 : UInt32)).length / hashWords ∧
      (List.replicate 16 (0 : UInt32)).length / hashWords < 2 ^ 32 ∧
      Complete 4303349632 1 (List.replicate 67239838 0) ∧
      ∃ dataset, generateDataset 4303349632 1 onesHasher (List.replicate 16 0) (List.replicate 67239838 0) =
          .ok dataset ∧
        hashimotoFull onesHasher dataset [] 0 ≠ hashimotoLight onesHasher 4303349632 (List.replicate 16 0) [] 0 :=
  have hsz : Sizes 4303349632 1 := ⟨by decide, by decide, by decide, by decide⟩
  have hc : Complete 4303349632 1 (List.replicate 67239838 0) := fun id => by
    rw [Subsingleton.elim id 0, List.count_replicate_self]
    decide
  ⟨hsz, by decide, by decide, hc, hashimotoFull_differs_past_4GiB hsz (by decide) (by decide) hc [] 0⟩

end Bzhash

end Bazacoin
