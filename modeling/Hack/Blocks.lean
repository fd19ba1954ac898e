import Mathlib.Data.List.Basic

/-!
# Blocks of a fixed size from a stream that arrives in chunks

A sender concatenates blocks of one size, and a receiver gets the stream in chunks it does
not choose. The collector is a receiver that appends each chunk to the block it is
collecting and has no room for more than a block. It recovers the blocks exactly when no
chunk reaches over the end of a block, that is, when every boundary of a block is also one
of a chunk. The type of the elements and the size are arbitrary.
-/

namespace Hack.Blocks

variable {α : Type*} {n : ℕ} {acc : List α} {chunks blocks : List (List α)} {fill count : ℕ}
  {chunk : List α}

/-- Collect blocks from chunks, beginning with a part of a block: the complete blocks and
the rest, or nothing when a chunk does not fit. -/
def collect (n : ℕ) : List α → List (List α) → Option (List (List α) × List α)
  | acc, [] => some ([], acc)
  | acc, chunk :: chunks =>
    if n < acc.length + chunk.length then none
    else if acc.length + chunk.length < n then collect n (acc ++ chunk) chunks
    else (collect n [] chunks).map fun r => ((acc ++ chunk) :: r.1, r.2)

/-- Every boundary of the given number of blocks is the end of a chunk, where part of the
first block has arrived already. -/
def Aligned (n count fill : ℕ) (chunks : List (List α)) : Prop :=
  ∀ k, 1 ≤ k → k ≤ count → ∃ j, fill + (chunks.take j).flatten.length = k * n

/-- A boundary beyond what has arrived is the end of the first chunk or of a later one. -/
theorem exists_end_cons {boundary j : ℕ} (hfill : fill < boundary)
    (hj : fill + ((chunk :: chunks).take j).flatten.length = boundary) :
    ∃ i, fill + chunk.length + (chunks.take i).flatten.length = boundary := by
  cases j with
  | zero =>
    simp only [List.take_zero, List.flatten_nil, List.length_nil] at hj
    omega
  | succ i =>
    simp only [List.take_succ_cons, List.flatten_cons, List.length_append] at hj
    exact ⟨i, by omega⟩

/-- A chunk that leaves the first block incomplete moves the boundaries. -/
theorem aligned_cons_of_lt (hlt : fill + chunk.length < n) :
    Aligned n count fill (chunk :: chunks) ↔ Aligned n count (fill + chunk.length) chunks := by
  constructor
  · intro h k hk hcount
    obtain ⟨j, hj⟩ := h k hk hcount
    have hle : n ≤ k * n := Nat.le_mul_of_pos_left n hk
    exact exists_end_cons (by omega) hj
  · intro h k hk hcount
    obtain ⟨j, hj⟩ := h k hk hcount
    exact ⟨j + 1, by simpa [Nat.add_assoc] using hj⟩

/-- A chunk that completes the first block leaves the boundaries of the others. -/
theorem aligned_cons_of_eq (heq : fill + chunk.length = n) (hfill : fill < n) :
    Aligned n (count + 1) fill (chunk :: chunks) ↔ Aligned n count 0 chunks := by
  constructor
  · intro h k hk hcount
    obtain ⟨j, hj⟩ := h (k + 1) (by omega) (by omega)
    rw [Nat.succ_mul] at hj
    obtain ⟨i, hi⟩ := exists_end_cons (by omega) hj
    exact ⟨i, by omega⟩
  · intro h k hk hcount
    rcases Nat.eq_or_lt_of_le hk with rfl | hk
    · exact ⟨1, by simpa using heq⟩
    · obtain ⟨j, hj⟩ := h (k - 1) (by omega) (by omega)
      have hmul : k * n = (k - 1) * n + n := by
        rw [← Nat.succ_mul]
        congr
        omega
      refine ⟨j + 1, ?_⟩
      simp only [List.take_succ_cons, List.flatten_cons, List.length_append]
      omega

/-- A chunk that reaches over the end of the first block hides its boundary. -/
theorem not_aligned_cons_of_gt (hgt : n < fill + chunk.length) (hfill : fill < n) :
    ¬Aligned n (count + 1) fill (chunk :: chunks) := by
  intro h
  obtain ⟨j, hj⟩ := h 1 (by omega) (by omega)
  obtain ⟨i, hi⟩ := exists_end_cons (by omega) hj
  omega

/-- The first of several blocks, when the beginning of it and one chunk make a block. -/
theorem exists_first_block {rest : List α} (hblocks : ∀ block ∈ blocks, block.length = n)
    (hstream : acc ++ (chunk ++ rest) = blocks.flatten) (hfull : acc.length + chunk.length = n)
    (hn : 0 < n) : ∃ others, blocks = (acc ++ chunk) :: others ∧ rest = others.flatten := by
  cases blocks with
  | nil =>
    have hlength := congrArg List.length hstream
    simp only [List.length_append, List.flatten_nil, List.length_nil] at hlength
    omega
  | cons block others =>
    have hlength : (acc ++ chunk).length = block.length := by
      rw [List.length_append, hfull, hblocks block List.mem_cons_self]
    rw [← List.append_assoc, List.flatten_cons] at hstream
    obtain ⟨hblock, hrest⟩ := List.append_inj hstream hlength
    exact ⟨others, by rw [hblock], hrest⟩

/-- The collector recovers the blocks of an aligned stream, and fails on any other. -/
theorem collect_cases (hblocks : ∀ block ∈ blocks, block.length = n)
    (hstream : acc ++ chunks.flatten = blocks.flatten) (hacc : acc.length < n) :
    Aligned n blocks.length acc.length chunks ∧ collect n acc chunks = some (blocks, []) ∨
      ¬Aligned n blocks.length acc.length chunks ∧ collect n acc chunks = none := by
  induction chunks generalizing acc blocks with
  | nil =>
    -- Less than a block is left, so there is no block and nothing left.
    cases blocks with
    | nil =>
      have hnil : acc = [] := by simpa using hstream
      subst hnil
      refine .inl ⟨fun k hk hcount => ?_, rfl⟩
      rw [List.length_nil] at hcount
      omega
    | cons block blocks =>
      have hlength := congrArg List.length hstream
      simp only [List.flatten_nil, List.append_nil, List.flatten_cons, List.length_append,
        hblocks block List.mem_cons_self] at hlength
      omega
  | cons chunk chunks ih =>
    rw [List.flatten_cons] at hstream
    rcases Nat.lt_trichotomy (acc.length + chunk.length) n with hlt | heq | hgt
    · have hcollect : collect n acc (chunk :: chunks) = collect n (acc ++ chunk) chunks := by
        rw [collect, if_neg (by omega), if_pos hlt]
      rw [aligned_cons_of_lt hlt, hcollect, ← List.length_append]
      refine ih hblocks ?_ ?_
      · rw [List.append_assoc, hstream]
      · rwa [List.length_append]
    · obtain ⟨others, rfl, hrest⟩ := exists_first_block hblocks hstream heq (by omega)
      have hcollect : collect n acc (chunk :: chunks) =
          (collect n [] chunks).map fun r => ((acc ++ chunk) :: r.1, r.2) := by
        rw [collect, if_neg (by omega), if_neg (by omega)]
      rw [List.length_cons, aligned_cons_of_eq heq hacc, hcollect]
      have hothers : ∀ block ∈ others, block.length = n := fun block hblock =>
        hblocks block (List.mem_cons_of_mem _ hblock)
      have hrest' : [] ++ chunks.flatten = others.flatten := hrest
      rcases ih hothers hrest' (Nat.zero_lt_of_lt hacc) with ⟨haligned, hr⟩ | ⟨haligned, hr⟩
      · exact .inl ⟨haligned, by rw [hr, Option.map_some]⟩
      · exact .inr ⟨haligned, by rw [hr, Option.map_none]⟩
    · obtain ⟨count, hcount⟩ : ∃ count, blocks.length = count + 1 := by
        cases blocks with
        | nil =>
          have hlength := congrArg List.length hstream
          simp only [List.length_append, List.flatten_nil, List.length_nil] at hlength
          omega
        | cons block blocks => exact ⟨_, rfl⟩
      rw [hcount]
      exact .inr ⟨not_aligned_cons_of_gt hgt hacc, by rw [collect, if_pos hgt]⟩

end Hack.Blocks
