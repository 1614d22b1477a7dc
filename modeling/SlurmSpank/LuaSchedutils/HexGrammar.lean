import SlurmSpank.Foundation.Separated
import SlurmSpank.LuaSchedutils.HexDigits

/-! # Which hexadecimal masks are read

A mask is a list of chunks of digits, of which each is shifted by 32 bits for every chunk behind
it. `hex_to_cpuset` takes more than that for several chunks, where it leaves the reading to
`strtoul`, and puts a chunk of more than eight digits in the wrong place. For one chunk it does
not undo what it has set when it meets a character that is no digit.
-/

namespace SlurmSpank.LuaSchedutils

open Foundation Lib

/-! ## Masks -/

/-- The string without the mark in front. -/
def hexBody (str : Text) : Text := if str.take 2 = ['0', 'x'] then str.drop 2 else str

/-- A chunk that has so many chunks behind it holds a CPU. -/
def ChunkBit (chunk : Nat × Text) (cpu : Nat) : Prop :=
  (hexValue chunk.2 * 2 ^ (hexChunkSz * chunk.1)).testBit cpu = true

/-- Chunks of digits, all of them for CPUs that fit the set. -/
def IsHexMask (str : Text) : Prop :=
  ∀ chunk ∈ pieces ',' (hexBody str), (chunk.2 ≠ [] ∧ ∀ c ∈ chunk.2, isHex c = true) ∧
    ∀ cpu, ChunkBit chunk cpu → cpu < cpuSetSize

/-- `hex_to_cpuset` accepts masks only, gives the CPUs of all their chunks, and leaves nothing in
the set when it fails. -/
structure ReadsHexMask (str : Text) : Prop where
  accepted_iff : (hexToCpuset str).1 = 0 ↔ IsHexMask str
  mem_iff : (hexToCpuset str).1 = 0 → ∀ cpu, cpu ∈ (hexToCpuset str).2.cpus ↔
    ∃ chunk ∈ pieces ',' (hexBody str), ChunkBit chunk cpu
  failed : (hexToCpuset str).1 ≠ 0 → (hexToCpuset str).2 = .zero

/-- A chunk that starts with more digits than a chunk may have. -/
def StartsLong (text : Text) : Prop := hexCharSize < (text.takeWhile isHex).length

/-- Of several chunks, one that is not taken: it does not start with more than eight digits, and
it is too long, or no numeral and not empty, or has 32 chunks or more behind it. -/
def ChunkRefused (chunk : Nat × Text) : Prop :=
  ¬ StartsLong chunk.2 ∧
    (32 ≤ chunk.1 ∨ hexCharSize < chunk.2.length ∨ chunk.2 ≠ [] ∧ ¬ IsHexNumeral chunk.2)

/-- Where a chunk of digits is put: one of more than eight digits as if there was nothing behind
it. -/
def takenPlace (chunk : Nat × Text) : Nat × Text :=
  (if hexCharSize < chunk.2.length then 0 else chunk.1, chunk.2)

/-- The strings for which the reading is exact. One chunk of digits has no CPU that does not fit
the set. Where one chunk is not of digits, nothing is set by those at its end. Of the chunks of a
mask those with 32 chunks behind them have more than eight digits, and it makes no difference to
the set that such long ones are not shifted. What is no mask has a chunk that is refused. -/
structure HexReadable (str : Text) : Prop where
  one : ',' ∉ hexBody str → (∀ c ∈ hexBody str, isHex c = true) →
    ∀ cpu, (hexValue (hexBody str)).testBit cpu = true → cpu < cpuSetSize
  oneFailed : ',' ∉ hexBody str → ¬ (∀ c ∈ hexBody str, isHex c = true) →
    ∀ cpu < cpuSetSize, ¬ (hexValue ((hexBody str).rtakeWhile isHex)).testBit cpu = true
  several : ',' ∈ hexBody str → IsHexMask str →
    (∀ chunk ∈ pieces ',' (hexBody str), 32 ≤ chunk.1 → hexCharSize < chunk.2.length) ∧
      ∀ cpu < cpuSetSize,
        (∃ chunk ∈ pieces ',' (hexBody str), ChunkBit (takenPlace chunk) cpu) ↔
          ∃ chunk ∈ pieces ',' (hexBody str), ChunkBit chunk cpu
  severalFailed : ',' ∈ hexBody str → ¬ IsHexMask str →
    ∃ chunk ∈ pieces ',' (hexBody str), ChunkRefused chunk

/-! ## Several chunks -/

theorem strtoulHex_length_le (text : Text) : (strtoulHex text).2.length ≤ text.length := by
  obtain ⟨blanks, sign, mark, htext, -⟩ := exists_hexStart text
  rw [strtoulHex_eq]
  split
  · exact Nat.le_refl _
  · have hdrop := (List.dropWhile_suffix isHex (l := hexStart text)).length_le
    have hlength := congrArg List.length htext
    rw [List.length_append, List.length_append, List.length_append] at hlength
    dsimp only
    omega

/-- A chunk that starts with more than eight digits is read up to the end of them. -/
theorem startsLong_reads {text : Text} (hlong : StartsLong text) :
    (strtoulHex text).2 = text.dropWhile isHex := by
  unfold StartsLong hexCharSize at hlong
  match text with
  | [] => simp at hlong
  | [c] =>
      have hle := (List.takeWhile_prefix isHex (l := [c])).length_le
      rw [List.length_singleton] at hle
      omega
  | c :: x :: more =>
      have hc : isHex c = true := by
        by_contra hnot
        rw [List.takeWhile_cons_of_neg hnot] at hlong
        exact absurd hlong (by decide)
      have hx : isHex x = true := by
        by_contra hnot
        rw [List.takeWhile_cons_of_pos hc, List.takeWhile_cons_of_neg hnot] at hlong
        simp at hlong
      refine (strtoulHex_of_isHex hc fun other hother => ?_).1
      obtain rfl := Option.some_inj.mp hother
      exact (reads_of_isHex hx).2.2.2.2

/-- One turn of the loop for a chunk in front of a comma or the end. -/
theorem readChunk_eq {text rest : Text} (hrest : AtComma rest) (chunk : Nat) (mask : CpuSet) :
    readChunk chunk (text ++ rest) (nexttoken (some rest) ',') mask =
      if hexCharSize < text.length - (strtoulHex text).2.length then
        if (sToCpuset mask text (text.length - (strtoulHex text).2.length)).1 < 0 then none
        else some (sToCpuset mask text (text.length - (strtoulHex text).2.length)).2
      else if (strtoulHex text).2 ≠ [] then none
      else setChunk chunk ((strtoulHex text).1 % 2 ^ 32) hexChunkSz mask := by
  have hle := strtoulHex_length_le text
  have hread : (text ++ rest).length - ((strtoulHex text).2 ++ rest).length =
      text.length - (strtoulHex text).2.length := by
    rw [List.length_append, List.length_append]
    omega
  have htake : (text ++ rest).take (text.length - (strtoulHex text).2.length) =
      text.take (text.length - (strtoulHex text).2.length) :=
    List.take_append_of_le_length (Nat.sub_le _ _)
  unfold readChunk
  rw [strtoulHex_append hrest]
  dsimp only
  rw [hread]
  refine if_congr Iff.rfl ?_ (if_congr ?_ rfl rfl)
  · unfold sToCpuset
    rw [htake]
  · rcases hrest with rfl | ⟨more, rfl⟩
    · simp [nexttoken]
    · rw [nexttoken_cons_self]
      simp

theorem chunkBit_iff {chunk : Nat × Text} {cpu : Nat} : ChunkBit chunk cpu ↔
    ∃ j, (hexValue chunk.2).testBit j = true ∧ cpu = hexChunkSz * chunk.1 + j := by
  rw [ChunkBit, Nat.testBit_mul_two_pow, Bool.and_eq_true, decide_eq_true_iff]
  constructor
  · rintro ⟨hle, hbit⟩
    exact ⟨cpu - hexChunkSz * chunk.1, hbit, (Nat.add_sub_cancel' hle).symm⟩
  · rintro ⟨j, hbit, rfl⟩
    exact ⟨Nat.le_add_right _ _, by rwa [Nat.add_sub_cancel_left]⟩

/-- A bit behind the end of the set is an error. -/
theorem setChunk_outside {chunk val bit : Nat} (mask : CpuSet)
    (houtside : cpuSetSize ≤ chunk * hexChunkSz + bit) :
    setChunk chunk val (bit + 1) mask = none := by
  rw [setChunk, if_pos houtside]

variable {text rest : Text} {chunk : Nat} {mask : CpuSet}

theorem readChunk_refused (hrest : AtComma rest) (hrefused : ChunkRefused (chunk, text)) :
    readChunk chunk (text ++ rest) (nexttoken (some rest) ',') mask = none := by
  obtain ⟨hshort, hreason⟩ := hrefused
  rw [readChunk_eq hrest]
  split
  next hmany =>
    have hnot : ¬ ∀ c ∈ text.take (text.length - (strtoulHex text).2.length),
        isHex c = true := by
      intro hall
      refine hshort ?_
      have hsplit := congrArg (List.takeWhile isHex)
        (List.take_append_drop (text.length - (strtoulHex text).2.length) text)
      rw [List.takeWhile_append_of_pos hall] at hsplit
      have hlength := congrArg List.length hsplit
      rw [List.length_append, List.length_take] at hlength
      unfold StartsLong
      dsimp only
      omega
    rw [(sToCpuset_spec mask text _).1, if_neg (mt List.all_eq_true.mp hnot), if_pos (by decide)]
  next hfew =>
    split
    next => rfl
    next hwhole =>
      rw [not_not] at hwhole
      have hnumeral := (strtoulHex_whole_iff text).mp hwhole
      rw [hwhole, List.length_nil, Nat.sub_zero] at hfew
      rcases hreason with houtside | hlong | ⟨hne, hnot⟩
      · refine setChunk_outside mask ?_
        unfold cpuSetSize hexChunkSz
        dsimp only at houtside
        omega
      · exact absurd hlong hfew
      · exact absurd (hnumeral.resolve_left hne) hnot

/-- A chunk that is not refused adds its CPUs, if it is one of digits, at the place where it is
put. -/
theorem readChunk_taken (hrest : AtComma rest) (htaken : ¬ ChunkRefused (chunk, text)) :
    ∃ result, readChunk chunk (text ++ rest) (nexttoken (some rest) ',') mask = some result ∧
      ((text ≠ [] ∧ ∀ c ∈ text, isHex c = true) → ∀ cpu, cpu ∈ result.cpus ↔
        cpu ∈ mask.cpus ∨ cpu < cpuSetSize ∧ ChunkBit (takenPlace (chunk, text)) cpu) := by
  rw [readChunk_eq hrest]
  by_cases hlong : StartsLong text
  -- Too many digits for a chunk: they are read as a mask of its own, from the first CPU on.
  · have hread : text.length - (strtoulHex text).2.length = (text.takeWhile isHex).length := by
      have hsplit := congrArg List.length (@List.takeWhile_append_dropWhile _ isHex text)
      rw [List.length_append] at hsplit
      rw [startsLong_reads hlong]
      omega
    have htake : text.take (text.takeWhile isHex).length = text.takeWhile isHex :=
      (List.prefix_iff_eq_take.mp (List.takeWhile_prefix isHex)).symm
    have hall : ∀ c ∈ text.takeWhile isHex, isHex c = true := fun c hc =>
      List.mem_takeWhile_imp hc
    obtain ⟨hrc, hmem⟩ := sToCpuset_spec mask text (text.takeWhile isHex).length
    rw [htake] at hrc hmem
    rw [if_pos (List.all_eq_true.mpr hall)] at hrc
    rw [hread, if_pos (show hexCharSize < (text.takeWhile isHex).length from hlong), hrc,
      if_neg (by decide)]
    refine ⟨_, rfl, fun hdigits cpu => ?_⟩
    have hwhole : text.takeWhile isHex = text := List.takeWhile_eq_self_iff.mpr hdigits.2
    have hplace : takenPlace (chunk, text) = (0, text) := by
      unfold StartsLong at hlong
      rw [hwhole] at hlong
      rw [takenPlace, if_pos hlong]
    rw [hmem, hwhole, List.rtakeWhile_eq_self_iff.mpr hdigits.2, hplace, ChunkBit, Nat.mul_zero,
      pow_zero, Nat.mul_one]
  -- A chunk of at most eight digits is moved to its place, and all of its bits fit the set.
  · obtain ⟨hchunk, hfew, hreason⟩ : chunk < 32 ∧ text.length ≤ hexCharSize ∧
        (text = [] ∨ IsHexNumeral text) := by
      have hnot := not_or.mp fun hreason => htaken ⟨hlong, hreason⟩
      have hnot' := not_or.mp hnot.2
      refine ⟨Nat.not_le.mp hnot.1, Nat.not_lt.mp hnot'.1, ?_⟩
      by_cases hnil : text = []
      · exact Or.inl hnil
      · exact Or.inr (not_not.mp fun hnumeral => hnot'.2 ⟨hnil, hnumeral⟩)
    have hwhole := (strtoulHex_whole_iff text).mpr hreason
    have hbound : chunk * hexChunkSz + hexChunkSz ≤ cpuSetSize := by
      unfold hexChunkSz cpuSetSize
      omega
    obtain ⟨result, hset, hmem⟩ :=
      @setChunk_spec chunk ((strtoulHex text).1 % 2 ^ 32) hexChunkSz mask hbound
    rw [hwhole, List.length_nil, Nat.sub_zero, if_neg (Nat.not_lt.mpr hfew),
      if_neg (not_not.mpr rfl), hset]
    refine ⟨result, rfl, fun hdigits cpu => ?_⟩
    have hplace : takenPlace (chunk, text) = (chunk, text) := by
      rw [takenPlace, if_neg (Nat.not_lt.mpr hfew)]
    have hlt : hexValue text < 2 ^ 32 := by
      refine (hexValue_lt hdigits.2).trans_le ?_
      exact (Nat.pow_le_pow_right (by decide) hfew).trans (by decide)
    have hvalue : (strtoulHex text).1 = hexValue text := by
      obtain ⟨c, more, rfl⟩ := List.exists_cons_of_ne_nil hdigits.1
      have hmore : ∀ x ∈ more.head?, x.toLower ≠ 'x' := fun x hx =>
        (reads_of_isHex
          (hdigits.2 x (List.mem_cons_of_mem c (List.mem_of_mem_head? hx)))).2.2.2.2
      obtain ⟨-, hvalue⟩ := strtoulHex_of_isHex (hdigits.2 c List.mem_cons_self) hmore
      rw [List.takeWhile_eq_self_iff.mpr hdigits.2] at hvalue
      exact hvalue (hlt.trans (by decide))
    rw [hmem, hplace, chunkBit_iff, hvalue, Nat.mod_eq_of_lt hlt]
    apply or_congr_right
    constructor
    · rintro ⟨j, hj, hbit, rfl⟩
      refine ⟨by omega, j, hbit, ?_⟩
      rw [Nat.mul_comm]
    · rintro ⟨-, j, hbit, rfl⟩
      refine ⟨j, ?_, hbit, by rw [Nat.mul_comm]⟩
      -- Eight digits have no bit above the size of a chunk.
      by_contra hge
      have hzero : (hexValue text).testBit j = false :=
        Nat.testBit_lt_two_pow (hlt.trans_le (Nat.pow_le_pow_right (by decide) (by
          unfold hexChunkSz at hge
          omega)))
      exact Bool.noConfusion (hbit.symm.trans hzero)

theorem countChunks_eq (str : Text) : countChunks str = (pieces ',' str).length := by
  induction str using separated_induction ',' with
  | last piece hpiece =>
      rw [countChunks, pieces_last hpiece]
      split
      next => rfl
      next q hq =>
        exact absurd ((nexttoken_last hpiece).symm.trans hq) (Option.some_ne_none q).symm
  | next piece rest hpiece ih =>
      rw [countChunks, pieces_next hpiece, List.length_cons, ← ih]
      split
      next hq =>
        exact absurd ((nexttoken_next hpiece rest).symm.trans hq) (Option.some_ne_none rest)
      next q hq =>
        obtain rfl := Option.some_inj.mp ((nexttoken_next hpiece rest).symm.trans hq)
        rfl

theorem hexToCpusetLoop_last {piece : Text} (hpiece : ',' ∉ piece) (chunk : Nat)
    (mask : CpuSet) : hexToCpusetLoop chunk piece mask =
      readChunk chunk (piece ++ []) (nexttoken (some []) ',') mask := by
  rw [hexToCpusetLoop, List.append_nil, nexttoken_last hpiece]
  exact Option.bind_fun_some _

theorem hexToCpusetLoop_next {piece : Text} (hpiece : ',' ∉ piece) (rest : Text) (chunk : Nat)
    (mask : CpuSet) : hexToCpusetLoop chunk (piece ++ ',' :: rest) mask =
      (readChunk chunk (piece ++ ',' :: rest) (nexttoken (some (',' :: rest)) ',') mask).bind
        (hexToCpusetLoop (chunk - 1) rest) := by
  rw [hexToCpusetLoop, nexttoken_next hpiece rest, nexttoken_cons_self]
  rfl

/-- The loop comes through if no chunk is refused, and then each chunk of a mask has added its
CPUs at the place where it is put. -/
theorem hexToCpusetLoop_spec (str : Text) (mask : CpuSet) :
    ((∃ chunk ∈ pieces ',' str, ChunkRefused chunk) ∧
        hexToCpusetLoop ((pieces ',' str).length - 1) str mask = none) ∨
      ((¬ ∃ chunk ∈ pieces ',' str, ChunkRefused chunk) ∧
        ∃ result, hexToCpusetLoop ((pieces ',' str).length - 1) str mask = some result ∧
          ((∀ chunk ∈ pieces ',' str, chunk.2 ≠ [] ∧ ∀ c ∈ chunk.2, isHex c = true) →
            ∀ cpu, cpu ∈ result.cpus ↔ cpu ∈ mask.cpus ∨ cpu < cpuSetSize ∧
              ∃ chunk ∈ pieces ',' str, ChunkBit (takenPlace chunk) cpu)) := by
  induction str using separated_induction ',' generalizing mask with
  | last piece hpiece =>
      rw [pieces_last hpiece, List.length_singleton, Nat.sub_self, hexToCpusetLoop_last hpiece]
      simp only [List.mem_singleton, exists_eq_left, forall_eq]
      by_cases hrefused : ChunkRefused (0, piece)
      · exact Or.inl ⟨hrefused, readChunk_refused (Or.inl rfl) hrefused⟩
      · exact Or.inr ⟨hrefused, readChunk_taken (Or.inl rfl) hrefused⟩
  | next piece rest hpiece ih =>
      have hcomma : AtComma (',' :: rest) := Or.inr ⟨rest, rfl⟩
      rw [pieces_next hpiece, List.length_cons, Nat.add_sub_cancel, hexToCpusetLoop_next hpiece]
      simp only [List.exists_mem_cons_iff, List.forall_mem_cons]
      by_cases hrefused : ChunkRefused ((pieces ',' rest).length, piece)
      · refine Or.inl ⟨Or.inl hrefused, ?_⟩
        rw [readChunk_refused hcomma hrefused, Option.bind_none]
      · obtain ⟨added, hturn, hadded⟩ := @readChunk_taken _ _ _ mask hcomma hrefused
        rw [hturn, Option.bind_some]
        rcases ih added with ⟨hlater, hnone⟩ | ⟨hlater, result, hloop, hmem⟩
        · exact Or.inl ⟨Or.inr hlater, hnone⟩
        · refine Or.inr ⟨not_or.mpr ⟨hrefused, hlater⟩, result, hloop, ?_⟩
          rintro ⟨hdigits, hrest⟩ cpu
          rw [hmem hrest, hadded hdigits, or_assoc, ← and_or_left]

/-! ## Exact reading -/

/-- A chunk of digits is refused only for the number of chunks behind it. -/
theorem chunkRefused_digits_iff {chunk : Nat × Text}
    (hdigits : chunk.2 ≠ [] ∧ ∀ c ∈ chunk.2, isHex c = true) :
    ChunkRefused chunk ↔ 32 ≤ chunk.1 ∧ ¬ hexCharSize < chunk.2.length := by
  have hnumeral : IsHexNumeral chunk.2 :=
    ⟨[], [], [], chunk.2, rfl, by simp, by simp, by simp, hdigits.1, hdigits.2⟩
  unfold ChunkRefused StartsLong
  rw [List.takeWhile_eq_self_iff.mpr hdigits.2]
  constructor
  · rintro ⟨hshort, houtside | hlong | ⟨-, hnot⟩⟩
    · exact ⟨houtside, hshort⟩
    · exact absurd hlong hshort
    · exact absurd hnumeral hnot
  · rintro ⟨houtside, hshort⟩
    exact ⟨hshort, Or.inl houtside⟩

variable {str : Text}

theorem hexToCpuset_one (hne : str ≠ []) (hone : ',' ∉ hexBody str) :
    hexToCpuset str = sToCpuset .zero (hexBody str) (hexBody str).length := by
  have hcount : countChunks (hexBody str) = 1 := by
    rw [countChunks_eq, pieces_last hone]
    rfl
  exact (if_neg (List.length_pos_iff.mpr hne).ne').trans (if_pos hcount)

theorem hexToCpuset_several (hne : str ≠ []) (hseveral : ',' ∈ hexBody str) :
    hexToCpuset str =
      match hexToCpusetLoop ((pieces ',' (hexBody str)).length - 1) (hexBody str) .zero with
      | none => (-1, .zero)
      | some mask => (0, mask) := by
  have hcount : ¬ countChunks (hexBody str) = 1 := by
    rw [countChunks_eq, pieces_length_eq_one_iff]
    exact not_not.mpr hseveral
  rw [← countChunks_eq]
  exact (if_neg (List.length_pos_iff.mpr hne).ne').trans (if_neg hcount)

/-- One chunk is read exactly if its digits fit the set and nothing is left behind on failure. -/
theorem readsHexMask_one_iff (hne : str ≠ []) (hbody : hexBody str ≠ [])
    (hone : ',' ∉ hexBody str) : ReadsHexMask str ↔ HexReadable str := by
  have hread := hexToCpuset_one hne hone
  have hpieces := pieces_last hone
  obtain ⟨hrc, hmem⟩ := sToCpuset_spec .zero (hexBody str) (hexBody str).length
  rw [← hread, List.take_length] at hrc hmem
  simp only [CpuSet.zero_cpus, Finset.notMem_empty, false_or] at hmem
  have hbit : ∀ cpu,
      ChunkBit (0, hexBody str) cpu ↔ (hexValue (hexBody str)).testBit cpu = true := by
    intro cpu
    rw [ChunkBit, Nat.mul_zero, pow_zero, Nat.mul_one]
  have hmask : IsHexMask str ↔ (∀ c ∈ hexBody str, isHex c = true) ∧
      ∀ cpu, (hexValue (hexBody str)).testBit cpu = true → cpu < cpuSetSize := by
    unfold IsHexMask
    rw [hpieces]
    simp only [List.mem_singleton, forall_eq, hbit]
    exact and_congr_left fun _ => and_iff_right hbody
  by_cases hdigits : ∀ c ∈ hexBody str, isHex c = true
  -- The body is accepted, and the bits that do not fit the set are lost.
  · rw [if_pos (List.all_eq_true.mpr hdigits)] at hrc
    rw [List.rtakeWhile_eq_self_iff.mpr hdigits] at hmem
    constructor
    · intro hreads
      have hfits := (hmask.mp (hreads.accepted_iff.mp hrc)).2
      exact ⟨fun _ _ => hfits, fun _ hnot => absurd hdigits hnot, fun hmore => absurd hmore hone,
        fun hmore => absurd hmore hone⟩
    · intro hreadable
      have hfits := hreadable.one hone hdigits
      refine ⟨iff_of_true hrc (hmask.mpr ⟨hdigits, hfits⟩), fun _ cpu => ?_,
        fun hfailed => absurd hrc hfailed⟩
      rw [hmem, hpieces]
      simp only [List.mem_singleton, exists_eq_left, hbit]
      exact and_iff_right_of_imp (hfits cpu)
  -- The body is refused, behind the digits at its end that were set by then.
  · rw [if_neg (mt List.all_eq_true.mp hdigits)] at hrc
    have hfailed : (hexToCpuset str).1 ≠ 0 := by
      rw [hrc]
      decide
    constructor
    · intro hreads
      have hempty := hreads.failed hfailed
      refine ⟨fun _ hall => absurd hall hdigits, fun _ _ cpu hcpu hset => ?_,
        fun hmore => absurd hmore hone, fun hmore => absurd hmore hone⟩
      have hin := (hmem cpu).mpr ⟨hcpu, hset⟩
      rw [hempty] at hin
      exact absurd hin (Finset.notMem_empty cpu)
    · intro hreadable
      have hnothing := hreadable.oneFailed hone hdigits
      refine ⟨iff_of_false hfailed fun hall => hdigits (hmask.mp hall).1,
        fun hzero => absurd hzero hfailed, fun _ => CpuSet.ext (Finset.ext fun cpu => ?_)⟩
      rw [hmem]
      refine iff_of_false ?_ (Finset.notMem_empty cpu)
      rintro ⟨hcpu, hset⟩
      exact hnothing cpu hcpu hset

/-- Several chunks are read exactly if what is refused is what is no mask, and long chunks do no
harm. -/
theorem readsHexMask_several_iff (hne : str ≠ []) (hseveral : ',' ∈ hexBody str) :
    ReadsHexMask str ↔ HexReadable str := by
  have hread := hexToCpuset_several hne hseveral
  rcases hexToCpusetLoop_spec (hexBody str) .zero with
    ⟨hrefused, hloop⟩ | ⟨hrefused, result, hloop, hmem⟩
  · rw [hloop] at hread
    have hfailed : (hexToCpuset str).1 ≠ 0 := by
      rw [hread]
      decide
    constructor
    · intro hreads
      have hnot := mt hreads.accepted_iff.mpr hfailed
      exact ⟨fun hone => absurd hseveral hone, fun hone => absurd hseveral hone,
        fun _ hmask => absurd hmask hnot, fun _ _ => hrefused⟩
    · intro hreadable
      have hnot : ¬ IsHexMask str := by
        intro hmask
        -- A chunk of digits is refused only where it stands outside of the set.
        obtain ⟨chunk, hchunk, hrefuses⟩ := hrefused
        obtain ⟨houtside, hshort⟩ := (chunkRefused_digits_iff (hmask chunk hchunk).1).mp hrefuses
        exact hshort ((hreadable.several hseveral hmask).1 chunk hchunk houtside)
      refine ⟨iff_of_false hfailed hnot, fun hzero => absurd hzero hfailed, fun _ => ?_⟩
      rw [hread]
  · rw [hloop] at hread
    have haccepted : (hexToCpuset str).1 = 0 := congrArg Prod.fst hread
    have hresult : (hexToCpuset str).2 = result := congrArg Prod.snd hread
    simp only [CpuSet.zero_cpus, Finset.notMem_empty, false_or] at hmem
    constructor
    · intro hreads
      have hmask := hreads.accepted_iff.mp haccepted
      have hcpus := hreads.mem_iff haccepted
      have hplaced := hmem fun chunk hchunk => (hmask chunk hchunk).1
      refine ⟨fun hone => absurd hseveral hone, fun hone => absurd hseveral hone,
        fun _ _ => ⟨fun chunk hchunk houtside => ?_, fun cpu hcpu => ?_⟩,
        fun _ hnot => absurd hmask hnot⟩
      · by_contra hshort
        exact hrefused ⟨chunk, hchunk,
          (chunkRefused_digits_iff (hmask chunk hchunk).1).mpr ⟨houtside, hshort⟩⟩
      · rw [← hcpus, hresult, hplaced]
        exact (and_iff_right hcpu).symm
    · intro hreadable
      have hmask : IsHexMask str := by
        by_contra hnot
        exact hrefused (hreadable.severalFailed hseveral hnot)
      have hplaced := hmem fun chunk hchunk => (hmask chunk hchunk).1
      obtain ⟨-, hsame⟩ := hreadable.several hseveral hmask
      refine ⟨iff_of_true haccepted hmask, fun _ cpu => ?_, fun hfailed => absurd haccepted hfailed⟩
      rw [hresult, hplaced]
      constructor
      · rintro ⟨hcpu, hbits⟩
        exact (hsame cpu hcpu).mp hbits
      · intro hbits
        obtain ⟨chunk, hchunk, hbit⟩ := hbits
        have hcpu := (hmask chunk hchunk).2 cpu hbit
        exact ⟨hcpu, (hsame cpu hcpu).mpr ⟨chunk, hchunk, hbit⟩⟩

/-- Apart from the empty mask, a string is read exactly if and only if none of the differences
between the reader and the grammar of masks comes to bear on it. -/
theorem hex_mask_read_iff (str : Text) (hne : str ≠ []) (hbare : str ≠ ['0', 'x']) :
    ReadsHexMask str ↔ HexReadable str := by
  have hbody : hexBody str ≠ [] := by
    unfold hexBody
    split
    next hmark =>
      intro hnil
      have hsplit := List.take_append_drop 2 str
      rw [hmark, hnil, List.append_nil] at hsplit
      exact hbare hsplit.symm
    next => exact hne
  by_cases hseveral : ',' ∈ hexBody str
  · exact readsHexMask_several_iff hne hseveral
  · exact readsHexMask_one_iff hne hbody hseveral

theorem hex_mask_read_iff_fifteen : ReadsHexMask ['f'] ↔ HexReadable ['f'] :=
  hex_mask_read_iff ['f'] (by decide) (by decide)

/-- A chunk of nine digits with one chunk behind it stands for CPU 64, but CPU 32 is set. -/
theorem long_chunk_not_shifted : ¬ ReadsHexMask "100000000,0".toList := by
  have hlong : ',' ∉ "100000000".toList := by decide
  have hshort : ',' ∉ ['0'] := by decide
  have hpieces : pieces ',' "100000000,0".toList = [(1, "100000000".toList), (0, ['0'])] := by
    have hnext := pieces_next hlong ['0']
    rw [pieces_last hshort] at hnext
    exact hnext
  have hloop : hexToCpusetLoop 1 "100000000,0".toList .zero = some (CpuSet.zero.set 32) := by
    have htext : "100000000,0".toList = "100000000".toList ++ [',', '0'] := rfl
    have hturn : readChunk 1 ("100000000".toList ++ [',', '0']) (nexttoken (some [',', '0']) ',')
        .zero = some (CpuSet.zero.set 32) := rfl
    have hlast : hexToCpusetLoop 0 ['0'] (CpuSet.zero.set 32) = some (CpuSet.zero.set 32) := by
      rw [hexToCpusetLoop_last hshort]
      rfl
    rw [htext, hexToCpusetLoop_next hlong, hturn, Option.bind_some]
    exact hlast
  have hread : hexToCpuset "100000000,0".toList = (0, CpuSet.zero.set 32) := by
    have hbody : hexBody "100000000,0".toList = "100000000,0".toList := rfl
    have hlength : (pieces ',' "100000000,0".toList).length - 1 = 1 := by
      rw [hpieces]
      rfl
    rw [hexToCpuset_several (by decide) (by decide), hbody, hlength, hloop]
  intro hreads
  have hcpus := hreads.mem_iff (congrArg Prod.fst hread) 64
  rw [hread] at hcpus
  have hbit : ChunkBit (1, "100000000".toList) 64 := by
    unfold ChunkBit
    decide
  have hin := hcpus.mpr ⟨(1, "100000000".toList), hpieces ▸ List.mem_cons_self, hbit⟩
  exact absurd hin (by decide)

end SlurmSpank.LuaSchedutils
