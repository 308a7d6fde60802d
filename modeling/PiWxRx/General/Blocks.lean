import Mathlib.Data.List.GetD
import Mathlib.Tactic

/-!
# Block-wise maps of a stream

A map that consumes a stream in blocks of `g` items and drops an incomplete block at the end
(`blockMap`), and the same map applied piece by piece to a stream cut into pieces. Each piece
restarts the blocks, so the result depends on the cuts. Maps applied in sequence are a map of larger
blocks (`blockMap_blockMap`).

`Aligned g lens` says that no cut falls inside a complete block of the whole stream. If the map
can tell one changed item from a constant block, this is exactly when the pieces give the result
of the whole stream, whatever the items are (`forall_flatMap_blockMap_eq_iff`).
-/

namespace Blocks

variable {α β : Type*}

/-- `f` of each complete block of `g` items. -/
def blockMap (g : ℕ) (f : List α → β) (xs : List α) : List β :=
  (List.range (xs.length / g)).map fun j => f ((xs.drop (g * j)).take g)

/-- Block `j` lies inside the stream. -/
private theorem block_le {g j m : ℕ} (hj : j < m / g) : g * j + g ≤ m := by
  rw [← Nat.mul_succ]
  exact (Nat.mul_le_mul_left g hj).trans (Nat.mul_div_le m g)

@[simp] theorem length_blockMap (g : ℕ) (f : List α → β) (xs : List α) :
    (blockMap g f xs).length = xs.length / g := by
  simp [blockMap]

theorem getElem?_blockMap (g : ℕ) (f : List α → β) (xs : List α) {j : ℕ}
    (hj : j < xs.length / g) :
    (blockMap g f xs)[j]? = some (f ((xs.drop (g * j)).take g)) := by
  simp [blockMap, hj]

theorem blockMap_of_lt {g : ℕ} (f : List α → β) {xs : List α} (h : xs.length < g) :
    blockMap g f xs = [] := by
  rw [blockMap, Nat.div_eq_of_lt h, List.range_zero, List.map_nil]

/-- Whole blocks come off the front. -/
theorem blockMap_append {g : ℕ} (hg : 0 < g) (f : List α → β) {xs : List α} (h : g ∣ xs.length)
    (ys : List α) : blockMap g f (xs ++ ys) = blockMap g f xs ++ blockMap g f ys := by
  obtain ⟨k, hk⟩ := h
  have hlen : (xs ++ ys).length / g = k + ys.length / g := by
    rw [List.length_append, hk, Nat.mul_add_div hg]
  have hle : k ≤ (xs ++ ys).length / g := by
    rw [hlen]
    exact Nat.le_add_right _ _
  refine List.ext_getElem? fun j => ?_
  -- the first `k` blocks lie in `xs`, the others in `ys`
  rcases Nat.lt_or_ge j k with hlt | hge
  · have hjk : j < xs.length / g := by rwa [hk, Nat.mul_div_cancel_left _ hg]
    have hjg := block_le hjk
    rw [List.getElem?_append_left (by rwa [length_blockMap]),
      getElem?_blockMap g f _ (by omega), getElem?_blockMap g f _ hjk,
      List.drop_append_of_le_length (by omega),
      List.take_append_of_le_length (by rw [List.length_drop]; omega)]
  · have hxs : (blockMap g f xs).length = k := by
      rw [length_blockMap, hk, Nat.mul_div_cancel_left _ hg]
    rw [List.getElem?_append_right (by rw [hxs]; exact hge), hxs]
    rcases Nat.lt_or_ge (j - k) (ys.length / g) with hj | hj
    · have hdrop : (xs ++ ys).drop (g * j) = ys.drop (g * (j - k)) := by
        have hgj : g * k ≤ g * j := Nat.mul_le_mul_left g hge
        rw [List.drop_append, List.drop_eq_nil_of_le (by omega), List.nil_append, hk,
          Nat.mul_sub]
      rw [getElem?_blockMap g f _ (by omega), getElem?_blockMap g f _ hj, hdrop]
    · rw [List.getElem?_eq_none (by rw [length_blockMap]; omega),
        List.getElem?_eq_none (by rw [length_blockMap]; omega)]

/-- One block comes off the front. -/
theorem blockMap_cons {g : ℕ} (hg : 0 < g) (f : List α → β) {b : List α} (hb : b.length = g)
    (xs : List α) : blockMap g f (b ++ xs) = f b :: blockMap g f xs := by
  rw [blockMap_append hg f (by rw [hb]) xs]
  simp [blockMap, hb, Nat.div_self hg, List.take_of_length_le]

/-- Blocks of blocks are larger blocks. -/
theorem blockMap_blockMap {γ : Type*} {m n : ℕ} (hm : 0 < m) (hn : 0 < n) (f : List β → γ)
    (d : List α → β) (xs : List α) :
    blockMap m f (blockMap n d xs) = blockMap (n * m) (fun b => f (blockMap n d b)) xs := by
  have hnm : 0 < n * m := Nat.mul_pos hn hm
  -- one large block comes off the front at a time
  induction hlen : xs.length using Nat.strong_induction_on generalizing xs with
  | _ len ih =>
    rcases Nat.lt_or_ge xs.length (n * m) with hlt | hge
    · rw [blockMap_of_lt _ hlt, blockMap_of_lt]
      rwa [length_blockMap, Nat.div_lt_iff_lt_mul hn, Nat.mul_comm]
    · have hb : (xs.take (n * m)).length = n * m := by rw [List.length_take, Nat.min_eq_left hge]
      have hbm : (blockMap n d (xs.take (n * m))).length = m := by
        rw [length_blockMap, hb, Nat.mul_div_cancel_left _ hn]
      have hrest := ih (xs.drop (n * m)).length (by rw [List.length_drop]; omega) _ rfl
      rw [← List.take_append_drop (n * m) xs, blockMap_append hn d (by rw [hb]; exact ⟨m, rfl⟩),
        blockMap_cons hm f hbm, blockMap_cons hnm _ hb, hrest]

/-- The blocks complete in a prefix are the first blocks of the stream. -/
theorem take_blockMap_append (g : ℕ) (f : List α → β) (xs ys : List α) :
    (blockMap g f (xs ++ ys)).take (xs.length / g) = blockMap g f xs := by
  have hle : xs.length / g ≤ (xs ++ ys).length / g := Nat.div_le_div_right (by simp)
  rw [blockMap, blockMap, ← List.map_take, List.take_range, Nat.min_eq_left hle]
  refine List.map_congr_left fun j hj => ?_
  have hjg := block_le (List.mem_range.mp hj)
  rw [List.drop_append_of_le_length (by omega),
    List.take_append_of_le_length (by rw [List.length_drop]; omega)]

/-- Items beyond the last complete block do not matter. -/
theorem blockMap_append_of_div_eq {g : ℕ} (f : List α → β) {xs ys : List α}
    (h : (xs.length + ys.length) / g = xs.length / g) :
    blockMap g f (xs ++ ys) = blockMap g f xs := by
  rw [← take_blockMap_append g f xs ys, List.take_of_length_le]
  rw [length_blockMap, List.length_append, h]

/-- A constant stream has constant blocks. -/
theorem eq_of_mem_blockMap_replicate {g : ℕ} {f : List α → β} {a : α} {n : ℕ} {y : β}
    (h : y ∈ blockMap g f (List.replicate n a)) : y = f (List.replicate g a) := by
  obtain ⟨j, hj, rfl⟩ := List.mem_map.mp h
  rw [List.mem_range, List.length_replicate] at hj
  have hjg := block_le hj
  rw [List.drop_replicate, List.take_replicate, Nat.min_eq_left (by omega)]

/-- The blocks depend on `f` only through its values on lists of `g` items. -/
theorem map_blockMap {γ : Type*} {g : ℕ} {f : List α → β} {f' : List α → γ} {h : β → γ}
    (hf : ∀ b : List α, b.length = g → h (f b) = f' b) (xs : List α) :
    (blockMap g f xs).map h = blockMap g f' xs := by
  rw [blockMap, blockMap, List.map_map]
  refine List.map_congr_left fun j hj => hf _ ?_
  have hjg := block_le (List.mem_range.mp hj)
  rw [List.length_take, List.length_drop]
  omega

/-! ## Cutting a stream -/

/-- Pieces of lengths `lens` leave every complete block of `g` items in one piece: each cut is at
a multiple of `g` or after the last complete block. -/
def Aligned (g : ℕ) (lens : List ℕ) : Prop :=
  ∀ pre post, lens = pre ++ post → g ∣ pre.sum ∨ lens.sum / g = pre.sum / g

theorem aligned_nil (g : ℕ) : Aligned g [] := by
  intro pre post h
  rw [(List.nil_eq_append_iff.mp h).1]
  exact Or.inr rfl

/-- Alignment from the first piece on. -/
theorem aligned_cons {g : ℕ} (hg : 0 < g) (n : ℕ) (lens : List ℕ) :
    Aligned g (n :: lens) ↔
      (g ∣ n ∧ Aligned g lens) ∨ (n + lens.sum) / g = n / g := by
  constructor
  · intro h
    rcases h [n] lens rfl with hdvd | heq
    · rw [List.sum_singleton] at hdvd
      refine Or.inl ⟨hdvd, fun pre post hsplit => ?_⟩
      -- a cut of the rest is a cut of the whole, a multiple of `g` further
      have hcut := h (n :: pre) post (by rw [hsplit]; rfl)
      obtain ⟨k, rfl⟩ := hdvd
      simpa [Nat.dvd_add_right (Nat.dvd_mul_right g k), Nat.mul_add_div hg] using hcut
    · exact Or.inr (by simpa using heq)
  · rintro (⟨hdvd, h⟩ | heq) pre post hsplit
    · rcases pre with _ | ⟨m, pre⟩
      · exact Or.inl (by simp)
      · obtain ⟨rfl, rfl⟩ := List.cons.inj hsplit
        obtain ⟨k, rfl⟩ := hdvd
        have hcut := h pre post rfl
        simpa [Nat.dvd_add_right (Nat.dvd_mul_right g k), Nat.mul_add_div hg] using hcut
    · rcases pre with _ | ⟨m, pre⟩
      · exact Or.inl (by simp)
      · obtain ⟨rfl, rfl⟩ := List.cons.inj (hsplit.trans List.cons_append)
        right
        rw [List.sum_append_nat] at heq
        rw [List.sum_cons, List.sum_cons, List.sum_append_nat]
        have h1 : n / g ≤ (n + pre.sum) / g := Nat.div_le_div_right (by omega)
        have h2 : (n + pre.sum) / g ≤ (n + (pre.sum + post.sum)) / g :=
          Nat.div_le_div_right (by omega)
        omega

/-- Pieces of whole blocks up to the last are aligned. -/
theorem aligned_of_dropLast {g : ℕ} (hg : 0 < g) {lens : List ℕ}
    (h : ∀ n ∈ lens.dropLast, g ∣ n) : Aligned g lens := by
  induction lens with
  | nil => exact aligned_nil g
  | cons n lens ih =>
    rw [aligned_cons hg]
    cases lens with
    | nil => exact Or.inr rfl
    | cons m lens =>
      rw [List.dropLast_cons_cons, List.forall_mem_cons] at h
      exact Or.inl ⟨h.1, ih h.2⟩

/-- Nonempty pieces are aligned to pairs exactly if all but the last are even. -/
theorem aligned_two_iff {counts : List ℕ} (h : ∀ n ∈ counts, 1 ≤ n) :
    Aligned 2 counts ↔ ∀ n ∈ counts.dropLast, 2 ∣ n := by
  induction counts with
  | nil => simp [aligned_nil]
  | cons n counts ih =>
    have ih := ih fun m hm => h m (List.mem_cons_of_mem n hm)
    rw [aligned_cons (by decide), ih]
    cases counts with
    | nil => simp
    | cons m counts =>
      have hm := h m (by simp)
      rw [List.dropLast_cons_cons, List.forall_mem_cons, List.sum_cons]
      refine ⟨fun hal => hal.elim id fun hend => ?_, Or.inl⟩
      -- with a byte after it, the last complete sample ends at the cut
      cases counts with
      | nil => exact ⟨by omega, by simp⟩
      | cons k counts =>
        have hk := h k (by simp)
        rw [List.sum_cons] at hend
        omega

/-- Pieces of whole groups of `k` items are aligned to `k * g` items as the groups are to `g`. -/
theorem aligned_mul_iff {k : ℕ} (hk : 0 < k) (g : ℕ) (counts : List ℕ) :
    Aligned (k * g) (counts.map (k * ·)) ↔ Aligned g counts := by
  have hcut : ∀ pre : List ℕ, (k * g ∣ (pre.map (k * ·)).sum ∨
        (counts.map (k * ·)).sum / (k * g) = (pre.map (k * ·)).sum / (k * g)) ↔
      (g ∣ pre.sum ∨ counts.sum / g = pre.sum / g) := by
    intro pre
    rw [List.sum_map_mul_left, List.sum_map_mul_left, List.map_id', List.map_id',
      Nat.mul_dvd_mul_iff_left hk, Nat.mul_div_mul_left _ _ hk, Nat.mul_div_mul_left _ _ hk]
  constructor
  · rintro h pre post rfl
    rw [← hcut]
    exact h (pre.map (k * ·)) (post.map (k * ·)) List.map_append
  · intro h pre' post' hsplit
    obtain ⟨pre, post, rfl, rfl, rfl⟩ := List.map_eq_append_iff.mp hsplit
    rw [hcut]
    exact h pre post rfl

/-- Aligned pieces give the blocks of the whole stream. -/
theorem flatMap_blockMap_of_aligned {g : ℕ} (hg : 0 < g) (f : List α → β)
    {pieces : List (List α)} (h : Aligned g (pieces.map List.length)) :
    pieces.flatMap (blockMap g f) = blockMap g f pieces.flatten := by
  induction pieces with
  | nil => simp [blockMap_of_lt f (show ([] : List α).length < g from hg)]
  | cons c pieces ih =>
    rw [List.map_cons, aligned_cons hg] at h
    rw [List.flatMap_cons, List.flatten_cons]
    rcases h with ⟨hdvd, h⟩ | heq
    · rw [blockMap_append hg f hdvd, ih h]
    · -- the first piece has all complete blocks, so the pieces after it have none
      rw [← List.length_flatten] at heq
      have hrest : pieces.flatten.length < g := by
        by_contra hge
        have hle := Nat.div_le_div_right (c := g)
          (show c.length + g ≤ c.length + pieces.flatten.length by omega)
        rw [Nat.add_div_right _ hg] at hle
        omega
      have hshort : pieces.flatMap (blockMap g f) = [] := by
        rw [List.flatMap_eq_nil_iff]
        intro d hd
        refine blockMap_of_lt f (lt_of_le_of_lt ?_ hrest)
        exact (List.sublist_flatten_of_mem hd).length_le
      rw [blockMap_append_of_div_eq f heq, hshort, List.append_nil]

private theorem flatten_map_replicate (a : α) (lens : List ℕ) :
    (lens.map fun m => List.replicate m a).flatten = List.replicate lens.sum a := by
  induction lens with
  | nil => rfl
  | cons m lens ih =>
    rw [List.map_cons, List.flatten_cons, ih, List.sum_cons, List.replicate_add]

/-- The block at position `m` of a constant stream changed there. -/
private theorem take_drop_changed (a b : α) {g m r k : ℕ} (hg : 0 < g) (h : g ≤ r + 1 + k) :
    (((List.replicate m a ++ b :: List.replicate r a) ++ List.replicate k a).drop m).take g =
      b :: List.replicate (g - 1) a := by
  obtain ⟨g', rfl⟩ := Nat.exists_eq_add_of_le' hg
  rw [List.append_assoc, List.drop_append, List.drop_eq_nil_of_le (by simp),
    List.length_replicate, Nat.sub_self, List.drop_zero, List.nil_append, List.cons_append,
    ← List.replicate_add, List.take_succ_cons, List.take_replicate,
    Nat.min_eq_left (by omega), Nat.add_sub_cancel]

/-- A cut inside a complete block shows: with one item `b` of that block changed against the
constant stream `a`, the block of the whole stream sees it and no block of a piece does. -/
theorem exists_flatMap_blockMap_ne {g : ℕ} (hg : 0 < g) {f : List α → β} {a b : α}
    (hab : f (b :: List.replicate (g - 1) a) ≠ f (List.replicate g a)) {n : ℕ} {lens : List ℕ}
    (hdvd : ¬ g ∣ n) (hsplit : (n + lens.sum) / g ≠ n / g) :
    ∃ pieces : List (List α), pieces.map List.length = n :: lens ∧
      pieces.flatMap (blockMap g f) ≠ blockMap g f pieces.flatten := by
  have hmod : g * (n / g) < n := by
    have h1 := Nat.div_add_mod n g
    have h2 : n % g ≠ 0 := fun h => hdvd (Nat.dvd_of_mod_eq_zero h)
    omega
  obtain ⟨r, hr⟩ : ∃ r, n = g * (n / g) + (r + 1) := ⟨n - g * (n / g) - 1, by omega⟩
  set q := n / g
  -- the first piece carries `b` at the start of the block it is cut in
  let first : List α := List.replicate (g * q) a ++ b :: List.replicate r a
  refine ⟨first :: lens.map fun m => List.replicate m a, ?_, fun heq => ?_⟩
  · simp only [List.map_cons, List.map_map, first]
    congr 1
    · simp; omega
    · exact (List.map_congr_left fun m _ => by simp).trans (List.map_id lens)
  · have hflat := flatten_map_replicate a lens
    have hfirst : first.length = n := by simp [first]; omega
    have hq : q < (first ++ List.replicate lens.sum a).length / g := by
      have : n / g ≤ (n + lens.sum) / g := Nat.div_le_div_right (by omega)
      rw [List.length_append, hfirst, List.length_replicate]
      omega
    have hblock := getElem?_blockMap g f (first ++ List.replicate lens.sum a) hq
    rw [List.flatten_cons, hflat] at heq
    rw [← heq, List.flatMap_cons, List.getElem?_append_right
      (by rw [length_blockMap, hfirst]), length_blockMap, hfirst, Nat.sub_self] at hblock
    -- the whole stream sees the changed item
    have hwhole := take_drop_changed a b (m := g * q) (r := r) (k := lens.sum) hg (by
      have hle := block_le hq
      rw [List.length_append, hfirst, List.length_replicate] at hle
      omega)
    rw [hwhole] at hblock
    -- the later pieces are constant
    obtain ⟨d, hd, hmem⟩ := List.mem_flatMap.mp (List.mem_of_getElem? hblock)
    obtain ⟨m, -, rfl⟩ := List.mem_map.mp hd
    exact hab (eq_of_mem_blockMap_replicate hmem)

/-- Whether the pieces give the blocks of the whole stream, for every stream, depends on the cuts
alone: they have to be aligned. -/
theorem forall_flatMap_blockMap_eq_iff {g : ℕ} (hg : 0 < g) {f : List α → β} {a b : α}
    (hab : f (b :: List.replicate (g - 1) a) ≠ f (List.replicate g a)) (lens : List ℕ) :
    (∀ pieces : List (List α), pieces.map List.length = lens →
      pieces.flatMap (blockMap g f) = blockMap g f pieces.flatten) ↔ Aligned g lens := by
  refine ⟨fun h => ?_, fun h pieces hlens => flatMap_blockMap_of_aligned hg f (hlens ▸ h)⟩
  induction lens with
  | nil => exact aligned_nil g
  | cons n lens ih =>
    rw [aligned_cons hg]
    by_cases hdvd : g ∣ n
    · -- in front of any pieces a constant first piece adds the same blocks on both sides
      refine Or.inl ⟨hdvd, ih fun pieces hlens => ?_⟩
      have hall := h (List.replicate n a :: pieces) (by simp [hlens])
      rw [List.flatMap_cons, List.flatten_cons, blockMap_append hg f (by simpa)] at hall
      exact List.append_cancel_left hall
    · right
      by_contra hsplit
      obtain ⟨pieces, hlens, hne⟩ := exists_flatMap_blockMap_ne hg hab hdvd hsplit
      exact hne (h pieces hlens)

end Blocks
