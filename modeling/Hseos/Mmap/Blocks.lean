import Hseos.Lib.Tiling
import Hseos.Mmap.Windows
import Mathlib.Order.Bounds.Basic

/-! # The blocks of a file

The same loops as in `Hseos.Mmap.Windows`, told by the blocks that they map. The inner loop reads as many
bytes as the file has, whatever the length of the block; behind a block it reads other memory, which the
environment may have mapped or not. Where it has not, the program is killed.
-/

namespace Hseos.Mmap

/-- The bytes behind a block, of this offset and length, that can be read. -/
abbrev Behind := ℕ × ℕ → ℕ → Bool

/-- `mem[i]` can be read; nothing can be read through `MAP_FAILED`. -/
def readable (behind : Behind) (mapping : Option ℕ) (offset i : ℕ) : Bool :=
  match mapping with
  | none => false
  | some length => i < length || behind (offset, length) i

/-- The outer loop, from `sz` on: the blocks that it maps. The inner loop reads `mem[0]` to
`mem[s.st_size - 1]` and changes neither variable. -/
def mapBlocks (pageSize limit size : ℕ) (behind : Behind) : ℕ → ℕ → ℕ → Except Fault (List (ℕ × ℕ))
  | 0, _, _ => .error .outOfFuel
  | fuel + 1, sz, blockSize =>
      if sz < size then do
        let rest := wordSub 64 size sz
        let blockSize := if rest < blockSize then rest else blockSize
        let mapping := mmapFile pageSize limit blockSize sz
        if (List.range size).all (readable behind mapping sz) then
          let blocks ← mapBlocks pageSize limit size behind fuel (wordAdd 64 sz blockSize) blockSize
          return (sz, blockSize) :: blocks
        else .error .outOfBounds
      else .ok []

variable {pageSize limit size blockSize fuel sz : ℕ} {behind : Behind} {file : List (BitVec 8)}

/-- The multiple of the page size that is the greatest one within the limit. -/
theorem isGreatest_pages (positive : 0 < pageSize) (limit : ℕ) :
    IsGreatest {n | pageSize ∣ n ∧ n ≤ limit} (limit / pageSize * pageSize) := by
  constructor
  · exact ⟨Nat.dvd_mul_left _ _, Nat.div_mul_le_self _ _⟩
  · rintro n ⟨⟨pages, rfl⟩, within⟩
    rw [Nat.mul_comm]
    exact Nat.mul_le_mul_right _ ((Nat.le_div_iff_mul_le positive).mpr (Nat.mul_comm _ _ ▸ within))

/-- For a file beyond the limit, the block has as many pages as the limit. -/
theorem probeBlockSize_pages (positive : 0 < pageSize) (page : pageSize < 2 ^ 31) (word : size < 2 ^ 63)
    (exceeds : limit < size) {pages : ℕ} (inside : pages * pageSize ≤ limit)
    (enough : size - pages * pageSize < fuel) :
    probeBlockSize pageSize limit size fuel (pages * pageSize) = .ok (limit / pageSize * pageSize) := by
  induction fuel generalizing pages with
  | zero => omega
  | succ fuel ih =>
    have more : (pages + 1) * pageSize = pages * pageSize + pageSize := Nat.succ_mul _ _
    have next : wordAdd 64 (pages * pageSize) pageSize = (pages + 1) * pageSize :=
      (wordAdd_of_lt (by omega)).trans more.symm
    rw [probeBlockSize, if_pos (by omega)]
    simp only [next]
    by_cases fits : (pages + 1) * pageSize ≤ limit
    · rw [if_neg (by omega), mmapFile, if_pos ⟨Nat.zero_mod _, by omega, fits⟩]
      exact ih fits (by omega)
    · have last : limit / pageSize = pages :=
        Nat.div_eq_of_lt_le inside (by omega)
      have refused : ∀ length > limit, mmapFile pageSize limit length 0 = none :=
        fun length beyond => if_neg fun mapped => by omega
      rw [refused, last]
      split_ifs <;> omega

/-- The blocks from `sz` on are read where the file does not reach beyond them, or the memory behind them can
be read as far as the file is long. -/
def ReadableFrom (size blockSize : ℕ) (behind : Behind) (sz : ℕ) : Prop :=
  ∀ k, sz + k * blockSize < size → ∀ i < size, min blockSize (size - (sz + k * blockSize)) ≤ i →
    behind (sz + k * blockSize, min blockSize (size - (sz + k * blockSize))) i

theorem readableFrom_of_le (done : size ≤ sz) : ReadableFrom size blockSize behind sz := by
  intro k inside
  omega

/-- The first block, and the others. -/
theorem readableFrom_iff (inside : sz < size) : ReadableFrom size blockSize behind sz ↔
    (∀ i < size, min blockSize (size - sz) ≤ i → behind (sz, min blockSize (size - sz)) i) ∧
      ReadableFrom size blockSize behind (sz + blockSize) := by
  have next (k : ℕ) : sz + (k + 1) * blockSize = sz + blockSize + k * blockSize := by
    rw [Nat.succ_mul]
    omega
  constructor
  · intro all
    refine ⟨?_, fun k => ?_⟩
    · have first := all 0
      rw [Nat.zero_mul, Nat.add_zero] at first
      exact first inside
    · rw [← next]
      exact all (k + 1)
  · rintro ⟨first, others⟩ k
    cases k with
    | zero =>
      rw [Nat.zero_mul, Nat.add_zero]
      exact fun _ => first
    | succ k =>
      rw [next]
      exact others k

theorem all_readable_iff {length : ℕ} : (List.range size).all (readable behind (some length) sz) = true ↔
    ∀ i < size, length ≤ i → behind (sz, length) i := by
  simp only [List.all_eq_true, List.mem_range, readable, Bool.or_eq_true, decide_eq_true_eq]
  apply forall₂_congr
  intro i _
  rw [or_iff_not_imp_left, Nat.not_lt]

/-- One round: the block is mapped, and the program goes on if all reads succeed. -/
theorem mapBlocks_succ (word : size < 2 ^ 64) (inside : sz < size) (nonempty : 0 < blockSize)
    (within : blockSize ≤ limit) (aligned : sz % pageSize = 0) :
    mapBlocks pageSize limit size behind (fuel + 1) sz blockSize =
      if (List.range size).all (readable behind (some (min blockSize (size - sz))) sz) then
        (mapBlocks pageSize limit size behind fuel (sz + min blockSize (size - sz))
          (min blockSize (size - sz))).map ((sz, min blockSize (size - sz)) :: ·)
      else .error .outOfBounds := by
  have rest : wordSub 64 size sz = size - sz := wordSub_of_le word inside.le
  have shorter : (if size - sz < blockSize then size - sz else blockSize) = min blockSize (size - sz) := by
    split_ifs <;> omega
  have mapped : mmapFile pageSize limit (min blockSize (size - sz)) sz = some (min blockSize (size - sz)) :=
    if_pos ⟨aligned, by omega, by omega⟩
  have next : wordAdd 64 sz (min blockSize (size - sz)) = sz + min blockSize (size - sz) :=
    wordAdd_of_lt (by omega)
  rw [mapBlocks, if_pos inside]
  simp only [rest, shorter, mapped, next]
  rfl

/-- From a page on, the blocks tile the rest of the file, unless the program is killed at one of them. The
block is a number of pages, or the last one. -/
theorem mapBlocks_tiles (word : size < 2 ^ 64) (nonempty : 0 < blockSize) (within : blockSize ≤ limit)
    (aligned : sz < size → sz % pageSize = 0) (pages : blockSize % pageSize = 0 ∨ size ≤ sz + blockSize)
    (inside : sz ≤ size) (enough : size - sz < fuel) :
    (ReadableFrom size blockSize behind sz → ∃ blocks,
      mapBlocks pageSize limit size behind fuel sz blockSize = .ok blocks ∧ Tiles sz blocks size ∧
        ∀ block ∈ blocks, block.1 % pageSize = 0) ∧
    (¬ReadableFrom size blockSize behind sz →
      mapBlocks pageSize limit size behind fuel sz blockSize = .error .outOfBounds) := by
  induction fuel generalizing sz blockSize with
  | zero => omega
  | succ fuel ih =>
    rcases inside.eq_or_lt with rfl | more
    · have ended : ReadableFrom sz blockSize behind sz := readableFrom_of_le le_rfl
      refine ⟨fun _ => ⟨[], ?_, rfl, nofun⟩, fun unreadable => absurd ended unreadable⟩
      exact if_neg (Nat.lt_irrefl _)
    · rw [mapBlocks_succ word more nonempty within (aligned more), readableFrom_iff more, ← all_readable_iff]
      set length := min blockSize (size - sz) with taken
      have last : length = blockSize ∨ sz + length = size := by omega
      have same : ReadableFrom size length behind (sz + length) ↔
          ReadableFrom size blockSize behind (sz + blockSize) := by
        rcases last with whole | ends
        · rw [whole]
        · exact iff_of_true (readableFrom_of_le ends.ge) (readableFrom_of_le (by omega))
      have aligned' : sz + length < size → (sz + length) % pageSize = 0 := by
        intro beyond
        have whole : length = blockSize := by omega
        have whole' : blockSize % pageSize = 0 := by omega
        rw [whole, Nat.add_mod, aligned more, whole']
        exact Nat.zero_mod _
      have pages' : length % pageSize = 0 ∨ size ≤ sz + length + length := by
        rcases last with whole | ends
        · rw [whole]
          omega
        · omega
      obtain ⟨tiled, killed⟩ := ih (by omega) (by omega) aligned' pages' (by omega) (by omega)
      rw [← same]
      constructor
      · rintro ⟨reads, others⟩
        obtain ⟨blocks, mapped, tiles, pages⟩ := tiled others
        rw [if_pos reads, mapped]
        exact ⟨_, rfl, ⟨rfl, by omega, tiles⟩, List.forall_mem_cons.mpr ⟨aligned more, pages⟩⟩
      · intro unreadable
        split_ifs with reads
        · rw [killed fun others => unreadable ⟨reads, others⟩]
          rfl
        · rfl

/-- The inner loop ends if every byte can be read, with nothing behind the block. -/
theorem passMapping_ok_iff {mapping : Option ℕ} {offset i : ℕ} {reading : Reading}
    (word : file.length < 2 ^ 63) (inside : i ≤ file.length) (enough : file.length - i < fuel) :
    (∃ last, passMapping file mapping offset fuel i reading = .ok last) ↔
      ∀ j < file.length, i ≤ j → readable (fun _ _ => false) mapping offset j = true := by
  induction fuel generalizing i reading with
  | zero => omega
  | succ fuel ih =>
    rcases inside.eq_or_lt with rfl | more
    · apply iff_of_true ⟨reading, if_neg (Nat.lt_irrefl _)⟩
      intro j below from_
      omega
    · have next : wordAdd 64 i 1 = i + 1 := wordAdd_of_lt (by omega)
      have read : readMapping file mapping offset i =
          if readable (fun _ _ => false) mapping offset i then .ok (file.getD (offset + i) 0)
          else .error .outOfBounds := by
        cases mapping with
        | none => rfl
        | some length => simp only [readMapping, readable, Bool.or_false, decide_eq_true_eq]
      rw [passMapping, if_pos more, read]
      split_ifs with here
      · rw [ok_bind, next, ih (by omega) (by omega)]
        refine forall₂_congr fun j below => ⟨fun later from_ => ?_, fun all from_ => all (by omega)⟩
        rcases from_.eq_or_lt with rfl | beyond
        · exact here
        · exact later beyond
      · refine iff_of_false ?_ fun all => here (all i more le_rfl)
        rintro ⟨_, ⟨⟩⟩

/-- With nothing behind the blocks, `passBlocks` ends exactly if these blocks are mapped. -/
theorem passBlocks_ok_iff {reading : Reading} (word : file.length < 2 ^ 63) :
    (∃ last, passBlocks pageSize limit file fuel sz blockSize reading = .ok last) ↔
      ∃ blocks, mapBlocks pageSize limit file.length (fun _ _ => false) fuel sz blockSize = .ok blocks := by
  induction fuel generalizing sz blockSize reading with
  | zero => exact iff_of_false (by rintro ⟨_, ⟨⟩⟩) (by rintro ⟨_, ⟨⟩⟩)
  | succ fuel ih =>
    rw [passBlocks, mapBlocks]
    by_cases more : sz < file.length
    · rw [if_pos more, if_pos more]
      dsimp only
      generalize (if wordSub 64 file.length sz < blockSize then wordSub 64 file.length sz else blockSize) = next
      have passed : (∃ last, passMapping file (mmapFile pageSize limit next sz) sz (file.length + 1) 0 reading =
          .ok last) ↔ ∀ j < file.length, 0 ≤ j →
            readable (fun _ _ => false) (mmapFile pageSize limit next sz) sz j = true :=
        passMapping_ok_iff word (Nat.zero_le _) (Nat.lt_succ_self _)
      split_ifs with reads
      · simp only [List.all_eq_true, List.mem_range] at reads
        obtain ⟨middle, ran⟩ := passed.mpr fun j below _ => reads j below
        rw [ran, ok_bind, ih]
        constructor
        · rintro ⟨blocks, mapped⟩
          exact ⟨_, congrArg (Except.map ((sz, next) :: ·)) mapped⟩
        · rintro ⟨_, mapped⟩
          obtain ⟨blocks, mapped, _⟩ := ok_of_bind mapped
          exact ⟨blocks, mapped⟩
      · refine iff_of_false ?_ (by rintro ⟨_, ⟨⟩⟩)
        rintro ⟨last, ran⟩
        obtain ⟨middle, ran, _⟩ := ok_of_bind ran
        refine reads (List.all_eq_true.mpr fun j member => ?_)
        exact passed.mp ⟨middle, ran⟩ j (List.mem_range.mp member) (Nat.zero_le _)
    · rw [if_neg more, if_neg more]
      exact iff_of_true ⟨reading, rfl⟩ ⟨[], rfl⟩

/-- What the blocks of a file should be: none is empty, each begins at a page where the one before it ends,
they are disjoint, and together they are the file. -/
structure Covers (pageSize size : ℕ) (blocks : List (ℕ × ℕ)) : Prop where
  aligned : ∀ block ∈ blocks, block.1 % pageSize = 0
  nonempty : ∀ block ∈ blocks, 0 < block.2
  contiguous : Tiles 0 blocks size
  disjoint : blocks.Pairwise fun first second => first.1 + first.2 ≤ second.1
  whole : ∀ i, (∃ block ∈ blocks, block.1 ≤ i ∧ i < block.1 + block.2) ↔ i < size

theorem Covers.of_tiles {blocks : List (ℕ × ℕ)} (tiles : Tiles 0 blocks size)
    (aligned : ∀ block ∈ blocks, block.1 % pageSize = 0) : Covers pageSize size blocks := by
  refine ⟨aligned, tiles.pos, tiles, tiles.disjoint, fun i => ?_⟩
  rw [tiles.mem_iff]
  exact and_iff_right (Nat.zero_le i)

theorem exists_covers_iff (word : size < 2 ^ 64) (nonempty : 0 < blockSize) (within : blockSize ≤ limit)
    (pages : blockSize % pageSize = 0 ∨ size ≤ 0 + blockSize) (enough : size < fuel) :
    (∃ blocks, mapBlocks pageSize limit size behind fuel 0 blockSize = .ok blocks ∧
      Covers pageSize size blocks) ↔ ReadableFrom size blockSize behind 0 := by
  obtain ⟨tiled, killed⟩ := @mapBlocks_tiles pageSize limit size blockSize fuel 0 behind word nonempty within
    (fun _ => Nat.zero_mod _) pages (Nat.zero_le _) enough
  constructor
  · rintro ⟨blocks, mapped, _⟩
    by_contra unreadable
    rw [killed unreadable] at mapped
    cases mapped
  · intro reads
    obtain ⟨blocks, mapped, tiles, aligned⟩ := tiled reads
    exact ⟨blocks, mapped, .of_tiles tiles aligned⟩

/-- For every file, page size, limit, and memory behind the blocks: the search ends with the size of the file
if it is within the limit, and otherwise with the greatest number of whole pages within the limit. Then the
loop ends with blocks that cover the file if and only if the file is within the limit, or the memory behind
each block can be read as far as the file is long. -/
theorem blocks_cover_iff (pageSize limit size fuel : ℕ) (behind : Behind) (positive : 0 < pageSize)
    (page : pageSize < 2 ^ 31) (least : pageSize ≤ limit) (word : size < 2 ^ 63) (nonempty : 0 < size)
    (enough : size < fuel) :
    ∃ blockSize, probeBlockSize pageSize limit size fuel 0 = .ok blockSize ∧
      (size ≤ limit → blockSize = size) ∧
      (limit < size → IsGreatest {n | pageSize ∣ n ∧ n ≤ limit} blockSize) ∧
      ((∃ blocks, mapBlocks pageSize limit size behind fuel 0 blockSize = .ok blocks ∧
          Covers pageSize size blocks) ↔
        size ≤ limit ∨ ReadableFrom size (limit / pageSize * pageSize) behind 0) := by
  rcases Nat.lt_or_ge limit size with exceeds | fits
  · have probed : probeBlockSize pageSize limit size fuel 0 = .ok (limit / pageSize * pageSize) := by
      rw [← Nat.zero_mul pageSize]
      exact probeBlockSize_pages positive page word exceeds (by omega) (by omega)
    have found : 0 < limit / pageSize * pageSize := Nat.mul_pos (Nat.div_pos least positive) positive
    refine ⟨_, probed, fun fits => by omega, fun _ => isGreatest_pages positive limit, ?_⟩
    rw [exists_covers_iff (by omega) found (Nat.div_mul_le_self _ _) (.inl (Nat.mul_mod_left _ _)) enough,
      or_iff_right (Nat.not_le.mpr exceeds)]
  · refine ⟨size, probeBlockSize_fits positive page word fits (Nat.zero_le _) (by omega), fun _ => rfl,
      fun exceeds => by omega, ?_⟩
    rw [exists_covers_iff (by omega) nonempty fits (.inr (Nat.zero_add size).ge) enough,
      or_iff_left_of_imp fun _ => fits]
    refine iff_of_true (fun k inside i bound beyond => ?_) fits
    cases k with
    | zero => omega
    | succ k =>
      rw [Nat.succ_mul] at inside
      omega

/-- A file of three bytes in mappings of one page of two bytes, with other mappings behind each. -/
theorem blocks_cover_three :
    ∃ blocks, mapBlocks 2 2 3 (fun _ _ => true) 4 0 2 = .ok blocks ∧ Covers 2 3 blocks := by
  obtain ⟨blockSize, probed, _, _, covers⟩ := blocks_cover_iff 2 2 3 4 (fun _ _ => true) (by decide)
    (by decide) (by decide) (by decide) (by decide) (by decide)
  obtain rfl : 2 = blockSize := Except.ok.inj probed
  exact covers.mpr (.inr fun _ _ _ _ _ => rfl)

/-- With nothing behind the first page, the program is killed when it reads the third byte. -/
theorem blocks_not_covered : probeBlockSize 2 2 3 4 0 = .ok 2 ∧
    ¬∃ fuel blocks, mapBlocks 2 2 3 (fun _ _ => false) fuel 0 2 = .ok blocks := by
  refine ⟨rfl, ?_⟩
  rintro ⟨fuel, blocks, mapped⟩
  cases fuel <;> cases mapped

end Hseos.Mmap
