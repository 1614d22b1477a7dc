import SlurmSpank.Foundation.Hexadecimal
import SlurmSpank.LuaSchedutils.RoundTrip

/-! # The hexadecimal form of a CPU set is read back

`cpuset_to_hex` writes the chunks of a set from the highest one that holds a CPU down to the
first one. `hex_to_cpuset` reads one chunk digit by digit and several chunks as numbers, and
gives the set back in both cases.
-/

namespace SlurmSpank.LuaSchedutils

open Foundation Lib

/-! ## Writing a mask -/

/-- The loop of `cpuset_last_bit` over the CPUs below the given one. -/
def cpusetLastBitLoop (mask : CpuSet) : Nat → Nat
  | 0 => 0
  | i + 1 => if mask.isset i then i else cpusetLastBitLoop mask i

/-- `cpuset_last_bit`. -/
def cpusetLastBit (mask : CpuSet) : Nat := cpusetLastBitLoop mask cpuSetSize

/-- The loop of `cpuset_to_hex` over the bits of a chunk, from the highest to the lowest. -/
def chunkValue (mask : CpuSet) (chunk : Nat) : Nat → Nat → Nat
  | 0, val => val
  | bit + 1, val =>
      chunkValue mask chunk bit
        ((val <<< 1) % 2 ^ 32 ||| (mask.isset (chunk * hexChunkSz + bit)).toNat)

/-- `snprintf` to the place `cnt` of a string, with room for `size` characters. -/
def snprintfAt (str : Text) (cnt size : Nat) (written : Text) : Text × Nat :=
  (if size = 0 then str else str.take cnt ++ written.take (size - 1), cnt + written.length)

/-- The loop of `cpuset_to_hex` over the chunks below the given one, with `sep`, the string and
`cnt`. It has no result where it writes behind the end of the buffer. -/
def cpusetToHexLoop (mask : CpuSet) (len : Nat) : Nat → Text → Text × Nat → Option (Text × Nat)
  | 0, _, result => some result
  | chunk + 1, sep, (str, cnt) =>
      if len < cnt then none
      else
        let val := chunkValue mask chunk hexChunkSz 0
        cpusetToHexLoop mask len chunk [',']
          (snprintfAt str cnt (len - cnt) (sep ++ hexPadded hexCharSize val))

/-- `cpuset_to_hex`, with the string that is in the buffer. -/
def cpusetToHex (mask : CpuSet) (str : Text) (len : Nat) : Option (Text × Nat) :=
  let lastchunk := cpusetLastBit mask / hexChunkSz
  if len = 0 then some (str, 0) else cpusetToHexLoop mask len (lastchunk + 1) [] ([], 0)

/-- `l_cpu_set_tohex`. -/
def lCpuSetTohex (setp : CpuSet) : Option Text :=
  (cpusetToHex setp [] (1024 - 2)).map fun result => '0' :: 'x' :: result.1

/-! ## Chunks -/

theorem isset_of_cpusetLastBitLoop {mask : CpuSet} {bound cpu : Nat} (hcpu : cpu ∈ mask.cpus)
    (hlt : cpu < bound) : cpu ≤ cpusetLastBitLoop mask bound := by
  induction bound with
  | zero => exact absurd hlt (Nat.not_lt_zero cpu)
  | succ bound ih =>
      unfold cpusetLastBitLoop
      split
      · exact Nat.le_of_lt_succ hlt
      next hset =>
        rcases Nat.eq_or_lt_of_le (Nat.le_of_lt_succ hlt) with rfl | hless
        · exact absurd (CpuSet.isset_eq_true.mpr hcpu) hset
        · exact ih hless

theorem cpusetLastBitLoop_lt (mask : CpuSet) (bound : Nat) (hpos : 0 < bound) :
    cpusetLastBitLoop mask bound < bound := by
  induction bound with
  | zero => exact hpos
  | succ bound ih =>
      unfold cpusetLastBitLoop
      split
      · exact Nat.lt_succ_self bound
      · cases bound with
        | zero => exact hpos
        | succ bound => exact Nat.lt_succ_of_lt (ih (Nat.succ_pos bound))

/-- No CPU of a set is behind the last one that is found. -/
theorem le_cpusetLastBit {mask : CpuSet} {cpu : Nat} (hcpu : cpu ∈ mask.cpus) :
    cpu ≤ cpusetLastBit mask :=
  isset_of_cpusetLastBitLoop hcpu (mask.cpus_lt cpu hcpu)

/-- A bit that is shifted in comes in front of the others. -/
theorem testBit_shiftIn (val : Nat) (b : Bool) (j : Nat) :
    (2 * val ||| b.toNat).testBit j = if j = 0 then b else val.testBit (j - 1) := by
  rw [Nat.testBit_or, Nat.testBit_bool_toNat]
  cases j with
  | zero => simp
  | succ j => simp [Nat.testBit_succ]

/-- The bits of a chunk that have been read are those of the value. -/
theorem chunkValue_spec (mask : CpuSet) (chunk bit val : Nat) (hbit : bit ≤ 32)
    (hval : val < 2 ^ (32 - bit)) :
    chunkValue mask chunk bit val < 2 ^ 32 ∧
      ∀ j, (chunkValue mask chunk bit val).testBit j =
        if j < bit then mask.isset (chunk * hexChunkSz + j) else val.testBit (j - bit) := by
  induction bit generalizing val with
  | zero => exact ⟨hval, fun j => rfl⟩
  | succ bit ih =>
      have hpow : 2 ^ (32 - bit) = 2 * 2 ^ (32 - (bit + 1)) := by
        rw [← pow_succ']
        congr 1
        omega
      have hle : 2 ^ (32 - bit) ≤ 2 ^ 32 := Nat.pow_le_pow_right (by decide) (by omega)
      have hshift : (val <<< 1) % 2 ^ 32 = 2 * val := by
        rw [Nat.shiftLeft_eq, pow_one, Nat.mul_comm, Nat.mod_eq_of_lt (by omega)]
      have hbool : (mask.isset (chunk * hexChunkSz + bit)).toNat < 2 ^ (32 - bit) := by
        have htoNat := Bool.toNat_le (mask.isset (chunk * hexChunkSz + bit))
        omega
      obtain ⟨hlt, hbits⟩ := ih (2 * val ||| (mask.isset (chunk * hexChunkSz + bit)).toNat)
        (by omega) (Nat.or_lt_two_pow (by omega) hbool)
      rw [chunkValue, hshift]
      refine ⟨hlt, fun j => ?_⟩
      rw [hbits, testBit_shiftIn]
      rcases Nat.lt_trichotomy j bit with hless | rfl | hgreater
      · rw [if_pos hless, if_pos (Nat.lt_succ_of_lt hless)]
      · simp
      · rw [if_neg (by omega), if_neg (by omega), if_neg (by omega)]
        congr 1

/-- The value of a chunk. -/
def chunkOf (mask : CpuSet) (chunk : Nat) : Nat := chunkValue mask chunk hexChunkSz 0

theorem chunkOf_lt (mask : CpuSet) (chunk : Nat) : chunkOf mask chunk < 2 ^ 32 :=
  (chunkValue_spec mask chunk hexChunkSz 0 le_rfl (by decide)).1

theorem testBit_chunkOf (mask : CpuSet) (chunk : Nat) {j : Nat} (hj : j < hexChunkSz) :
    (chunkOf mask chunk).testBit j = mask.isset (chunk * hexChunkSz + j) := by
  rw [chunkOf, (chunkValue_spec mask chunk hexChunkSz 0 le_rfl (by decide)).2, if_pos hj]

/-- The digits of a number as text. -/
def digitText (width n : Nat) : Text := ((nibbles width n).map Nat.digitChar).reverse

/-- A chunk as text. -/
def chunkText (mask : CpuSet) (chunk : Nat) : Text := hexPadded hexCharSize (chunkOf mask chunk)

/-- The chunks below the given one as text, each behind a comma. -/
def chunkTail (mask : CpuSet) : Nat → Text
  | 0 => []
  | chunk + 1 => ',' :: chunkText mask chunk ++ chunkTail mask chunk

theorem chunkText_eq (mask : CpuSet) (chunk : Nat) :
    chunkText mask chunk = digitText 8 (chunkOf mask chunk) :=
  hexPadded_eq (by decide) (chunkOf_lt mask chunk)

@[simp] theorem chunkText_length (mask : CpuSet) (chunk : Nat) :
    (chunkText mask chunk).length = 8 := by
  simp [chunkText_eq, digitText]

theorem chunkTail_length (mask : CpuSet) (chunk : Nat) :
    (chunkTail mask chunk).length = 9 * chunk := by
  induction chunk with
  | zero => rfl
  | succ chunk ih =>
      simp only [chunkTail, List.length_append, List.length_cons, chunkText_length, ih]
      omega

/-- The chunks are written one behind the other as long as the buffer has room. -/
theorem cpusetToHexLoop_tail (mask : CpuSet) {len : Nat} (chunk : Nat) (str : Text)
    (hroom : str.length + 9 * chunk < len) :
    cpusetToHexLoop mask len chunk [','] (str, str.length) =
      some (str ++ chunkTail mask chunk, str.length + 9 * chunk) := by
  induction chunk generalizing str with
  | zero => simp [cpusetToHexLoop, chunkTail]
  | succ chunk ih =>
      have htext : [','] ++ hexPadded hexCharSize (chunkValue mask chunk hexChunkSz 0) =
          ',' :: chunkText mask chunk := rfl
      have hlength : (',' :: chunkText mask chunk).length = 9 := by simp
      have hwrite : snprintfAt str str.length (len - str.length) (',' :: chunkText mask chunk) =
          (str ++ ',' :: chunkText mask chunk, (str ++ ',' :: chunkText mask chunk).length) := by
        rw [snprintfAt, if_neg (by omega), List.take_length, List.take_of_length_le (by omega),
          List.length_append]
      rw [cpusetToHexLoop, if_neg (by omega)]
      dsimp only
      rw [htext, hwrite, ih _ (by simp; omega)]
      simp only [chunkTail, List.append_assoc, List.length_append, hlength, Option.some.injEq,
        Prod.mk.injEq, true_and]
      omega

/-- The text that `cpuset_to_hex` writes. -/
def hexText (mask : CpuSet) : Text :=
  chunkText mask (cpusetLastBit mask / hexChunkSz) ++
    chunkTail mask (cpusetLastBit mask / hexChunkSz)

theorem lastChunk_lt (mask : CpuSet) : cpusetLastBit mask / hexChunkSz < 32 := by
  have hlt : cpusetLastBit mask < 1024 := cpusetLastBitLoop_lt mask cpuSetSize (by decide)
  unfold hexChunkSz
  omega

theorem cpusetToHex_eq (mask : CpuSet) (str : Text) :
    cpusetToHex mask str (1024 - 2) = some (hexText mask, (hexText mask).length) := by
  have hlt := lastChunk_lt mask
  have htext : [] ++ hexPadded hexCharSize
      (chunkValue mask (cpusetLastBit mask / hexChunkSz) hexChunkSz 0) =
        chunkText mask (cpusetLastBit mask / hexChunkSz) := rfl
  have hlength := chunkText_length mask (cpusetLastBit mask / hexChunkSz)
  have hwrite : snprintfAt [] 0 1022 (chunkText mask (cpusetLastBit mask / hexChunkSz)) =
      (chunkText mask (cpusetLastBit mask / hexChunkSz),
        (chunkText mask (cpusetLastBit mask / hexChunkSz)).length) := by
    rw [snprintfAt, if_neg (by decide), List.take_zero, List.take_of_length_le (by omega),
      Nat.zero_add, List.nil_append]
  unfold cpusetToHex
  dsimp only
  rw [if_neg (by decide), cpusetToHexLoop, if_neg (by decide)]
  dsimp only
  rw [htext]
  change cpusetToHexLoop mask 1022 _ [','] (snprintfAt [] 0 1022 _) = _
  rw [hwrite, cpusetToHexLoop_tail _ _ _ (by omega)]
  simp only [hexText, List.length_append, chunkTail_length]

/-! ## Digits -/

/-- A hexadecimal digit is read as its value, and is nothing else that a reader looks for. -/
theorem digitChar_reads {d : Nat} (hd : d < 16) :
    charToVal d.digitChar = some d ∧ isSpace d.digitChar = false ∧ d.digitChar ≠ '-' ∧
      d.digitChar ≠ '+' ∧ d.digitChar ≠ ',' ∧ d.digitChar.toLower ≠ 'x' := by
  interval_cases d <;> decide

theorem exists_of_mem_digitText {width n : Nat} {c : Char} (hc : c ∈ digitText width n) :
    ∃ d < 16, c = Nat.digitChar d := by
  obtain ⟨d, hd, rfl⟩ := List.mem_map.mp (List.mem_reverse.mp hc)
  exact ⟨d, lt_of_mem_nibbles hd, rfl⟩

theorem charToVal_of_mem_digitText {width n : Nat} {c : Char} (hc : c ∈ digitText width n) :
    (charToVal c).isSome = true := by
  obtain ⟨d, hd, rfl⟩ := exists_of_mem_digitText hc
  rw [(digitChar_reads hd).1]
  rfl

theorem filterMap_digitText (width n : Nat) :
    (digitText width n).filterMap charToVal = (nibbles width n).reverse := by
  have hvalues : ∀ ds : List Nat, (∀ d ∈ ds, d < 16) →
      (ds.map Nat.digitChar).filterMap charToVal = ds := by
    intro ds hds
    induction ds with
    | nil => rfl
    | cons d ds ih =>
        rw [List.map_cons, List.filterMap_cons,
          (digitChar_reads (hds d List.mem_cons_self)).1,
          ih fun other hother => hds other (List.mem_cons_of_mem d hother)]
  rw [digitText, ← List.map_reverse]
  exact hvalues _ fun d hd => lt_of_mem_nibbles (List.mem_reverse.mp hd)

/-- What follows a chunk is no digit. -/
theorem AtComma.stops {rest : Text} (hrest : AtComma rest) :
    rest.takeWhile (fun c => (charToVal c).isSome) = [] ∧
      rest.dropWhile (fun c => (charToVal c).isSome) = rest := by
  rcases hrest with rfl | ⟨more, rfl⟩
  · exact ⟨rfl, rfl⟩
  · exact ⟨rfl, rfl⟩

/-- Digits up to a comma are read as the number. -/
theorem strtoulHex_digitText {width n : Nat} (hwidth : 2 ≤ width) (hn : n < 16 ^ width)
    (hsmall : n < 2 ^ 64) {rest : Text} (hrest : AtComma rest) :
    strtoulHex (digitText width n ++ rest) = (n, rest) := by
  have hlength : (digitText width n).length = width := by simp [digitText]
  have htake : (digitText width n ++ rest).takeWhile (fun c => (charToVal c).isSome) =
      digitText width n := by
    rw [List.takeWhile_append_of_pos fun c hc => charToVal_of_mem_digitText hc, hrest.stops.1,
      List.append_nil]
  have hdrop : (digitText width n ++ rest).dropWhile (fun c => (charToVal c).isSome) = rest := by
    rw [List.dropWhile_append_of_pos fun c hc => charToVal_of_mem_digitText hc, hrest.stops.2]
  have hvalue := foldl_nibbles hn
  rw [← filterMap_digitText] at hvalue
  have hne : (digitText width n).filterMap charToVal ≠ [] := by
    rw [filterMap_digitText]
    intro hnil
    have hzero := congrArg List.length hnil
    rw [List.length_reverse, nibbles_length, List.length_nil] at hzero
    omega
  obtain ⟨c, c', more, hcons⟩ : ∃ c c' more, digitText width n = c :: c' :: more := by
    match digitText width n, hlength with
    | [], hzero | [_], hzero => simp at hzero; omega
    | c :: c' :: more, _ => exact ⟨c, c', more, rfl⟩
  obtain ⟨d, hd, hc⟩ := exists_of_mem_digitText (hcons ▸ List.mem_cons_self : c ∈ digitText width n)
  obtain ⟨d', hd', hc'⟩ := exists_of_mem_digitText
    (hcons ▸ List.mem_cons_of_mem c List.mem_cons_self : c' ∈ digitText width n)
  obtain ⟨-, hblank, hminus, hplus, -, -⟩ := hc ▸ digitChar_reads hd
  obtain ⟨-, -, -, -, -, hmark⟩ := hc' ▸ digitChar_reads hd'
  have hspace : (digitText width n ++ rest).dropWhile isSpace = digitText width n ++ rest := by
    rw [hcons, List.cons_append, List.dropWhile_cons_of_neg (by simp [hblank])]
  have hsign : scanSign (digitText width n ++ rest) = (false, digitText width n ++ rest) := by
    rw [hcons, List.cons_append]
    unfold scanSign
    split
    next heq => exact absurd (List.cons.inj heq).1 hminus
    next heq => exact absurd (List.cons.inj heq).1 hplus
    next => rfl
  unfold strtoulHex
  rw [hspace, hsign]
  dsimp only
  split
  next x other tail heq =>
    have hx : c' = x := by
      rw [hcons] at heq
      exact (List.cons.inj (List.cons.inj heq).2).1
    subst hx
    have hmarked : ¬ (c'.toLower = 'x' ∧ (charToVal other).isSome = true) :=
      fun hand => hmark hand.1
    rw [if_neg hmarked, htake, hdrop, if_neg hne, hvalue, if_neg (Nat.not_le.mpr hsmall)]
    rfl
  next =>
    rw [htake, hdrop, if_neg hne, hvalue, if_neg (Nat.not_le.mpr hsmall)]
    rfl

/-! ## Reading a mask -/

/-- The bits of a value that fit the set are set. -/
theorem mem_setBits_iff (value base width : Nat) (mask : CpuSet) (cpu : Nat) :
    cpu ∈ (setBits value base width mask).cpus ↔ cpu ∈ mask.cpus ∨
      cpu < cpuSetSize ∧ ∃ j < width, value.testBit j = true ∧ cpu = base + j := by
  induction width with
  | zero => simp [setBits]
  | succ width ih =>
      have hstep : cpu ∈ (setBits value base (width + 1) mask).cpus ↔
          cpu ∈ (setBits value base width mask).cpus ∨
            cpu < cpuSetSize ∧ value.testBit width = true ∧ cpu = base + width := by
        rw [setBits]
        split
        next hbit =>
          by_cases hfits : base + width < cpuSetSize
          · rw [CpuSet.set_cpus hfits, Finset.mem_insert]
            constructor
            · rintro (rfl | hold)
              · exact Or.inr ⟨hfits, hbit, rfl⟩
              · exact Or.inl hold
            · rintro (hold | ⟨-, -, rfl⟩)
              · exact Or.inr hold
              · exact Or.inl rfl
          · rw [CpuSet.set, dif_neg hfits]
            refine (or_iff_left ?_).symm
            rintro ⟨hlt, -, rfl⟩
            exact hfits hlt
        next hbit =>
          refine (or_iff_left ?_).symm
          rintro ⟨-, hset, -⟩
          exact hbit hset
      rw [hstep, ih, or_assoc, Nat.exists_lt_succ_right, and_or_left]

theorem mem_setBits {value base width : Nat} {mask : CpuSet} (hbound : base + width ≤ cpuSetSize)
    (cpu : Nat) : cpu ∈ (setBits value base width mask).cpus ↔
      cpu ∈ mask.cpus ∨ ∃ j < width, value.testBit j = true ∧ cpu = base + j := by
  rw [mem_setBits_iff]
  apply or_congr_right
  refine and_iff_right_of_imp ?_
  rintro ⟨j, hj, -, rfl⟩
  omega

/-- Digits that are read from the last one on set the bits of the number. -/
theorem sToCpusetLoop_nibbles (width n base : Nat) (mask : CpuSet)
    (hbound : base + 4 * width ≤ cpuSetSize) :
    ∃ result, sToCpusetLoop ((nibbles width n).map Nat.digitChar) base mask = (0, result) ∧
      ∀ cpu, cpu ∈ result.cpus ↔
        cpu ∈ mask.cpus ∨ ∃ j < 4 * width, n.testBit j = true ∧ cpu = base + j := by
  induction width generalizing n base mask with
  | zero => exact ⟨mask, rfl, by simp⟩
  | succ width ih =>
      obtain ⟨result, hloop, hmem⟩ :=
        ih (n / 16) (base + 4) (setBits (n % 16) base 4 mask) (by omega)
      refine ⟨result, ?_, fun cpu => ?_⟩
      · rw [nibbles, List.map_cons, sToCpusetLoop, (digitChar_reads (Nat.mod_lt n (by decide))).1]
        exact hloop
      · rw [hmem, mem_setBits (by omega), or_assoc, or_congr_right]
        constructor
        · rintro (⟨j, hj, hset, rfl⟩ | ⟨j, hj, hset, rfl⟩)
          · exact ⟨j, by omega, by rw [← testBit_mod_16 hj, hset], rfl⟩
          · exact ⟨4 + j, by omega, by rw [← testBit_div_16, hset], by omega⟩
        · rintro ⟨j, hj, hset, rfl⟩
          by_cases hlow : j < 4
          · exact Or.inl ⟨j, hlow, by rw [testBit_mod_16 hlow, hset], rfl⟩
          · obtain ⟨k, rfl⟩ := Nat.exists_eq_add_of_le (Nat.not_lt.mp hlow)
            exact Or.inr ⟨k, by omega, by rw [testBit_div_16, hset], by omega⟩

/-- The bits of a chunk that are set. -/
theorem setChunk_spec {chunk val bit : Nat} (mask : CpuSet)
    (hbound : chunk * hexChunkSz + bit ≤ cpuSetSize) :
    ∃ result, setChunk chunk val bit mask = some result ∧ ∀ cpu, cpu ∈ result.cpus ↔
      cpu ∈ mask.cpus ∨ ∃ j < bit, val.testBit j = true ∧ cpu = chunk * hexChunkSz + j := by
  induction bit generalizing mask with
  | zero => exact ⟨mask, rfl, by simp⟩
  | succ bit ih =>
      have hn : chunk * hexChunkSz + bit < cpuSetSize := by omega
      obtain ⟨result, hset, hmem⟩ :=
        ih (if val.testBit bit then mask.set (chunk * hexChunkSz + bit) else mask) (by omega)
      refine ⟨result, ?_, fun cpu => ?_⟩
      · rw [setChunk, if_neg (Nat.not_le.mpr hn), hset]
      · have hstep : cpu ∈ (if val.testBit bit then mask.set (chunk * hexChunkSz + bit)
            else mask).cpus ↔ cpu ∈ mask.cpus ∨
              val.testBit bit = true ∧ cpu = chunk * hexChunkSz + bit := by
          split
          next hbit =>
            rw [CpuSet.set_cpus hn, Finset.mem_insert]
            simp [hbit, or_comm]
          next hbit => simp [hbit]
        rw [hmem, hstep, or_assoc, Nat.exists_lt_succ_right, or_comm (a := _ ∧ _)]

theorem atComma_chunkTail (mask : CpuSet) (chunk : Nat) : AtComma (chunkTail mask chunk) := by
  cases chunk with
  | zero => exact Or.inl rfl
  | succ chunk => exact Or.inr ⟨_, rfl⟩

theorem comma_notMem_chunkText (mask : CpuSet) (chunk : Nat) : ',' ∉ chunkText mask chunk := by
  rw [chunkText_eq]
  intro hmem
  obtain ⟨d, hd, hc⟩ := exists_of_mem_digitText hmem
  exact (digitChar_reads hd).2.2.2.2.1 hc.symm

theorem nexttoken_chunkText (mask : CpuSet) (chunk : Nat) (rest : Text) :
    nexttoken (some (chunkText mask chunk ++ rest)) ',' = nexttoken (some rest) ',' :=
  nexttoken_append (comma_notMem_chunkText mask chunk) rest

theorem countChunks_hexText (mask : CpuSet) (chunk : Nat) :
    countChunks (chunkText mask chunk ++ chunkTail mask chunk) = chunk + 1 := by
  induction chunk with
  | zero =>
      rw [countChunks]
      have hnext : nexttoken (some (chunkText mask 0 ++ chunkTail mask 0)) ',' = none := by
        rw [nexttoken_chunkText]
        rfl
      split
      · rfl
      next q hq => exact absurd (hnext.symm.trans hq) (by simp)
  | succ chunk ih =>
      rw [countChunks]
      have hnext : nexttoken (some (chunkText mask (chunk + 1) ++ chunkTail mask (chunk + 1))) ',' =
          some (chunkText mask chunk ++ chunkTail mask chunk) := by
        rw [nexttoken_chunkText]
        exact nexttoken_cons_self ',' _
      split
      next hq => exact absurd (hnext.symm.trans hq) (by simp)
      next q hq =>
        obtain rfl := Option.some_inj.mp (hnext.symm.trans hq)
        rw [ih]

/-- A chunk in front of a comma or the end sets its CPUs. -/
theorem readChunk_chunkText (mask : CpuSet) {chunk : Nat} (hchunk : chunk < 32)
    (set : CpuSet) : ∃ result,
      readChunk chunk (chunkText mask chunk ++ chunkTail mask chunk)
          (nexttoken (some (chunkTail mask chunk)) ',') set = some result ∧
        ∀ cpu, cpu ∈ result.cpus ↔ cpu ∈ set.cpus ∨
          cpu ∈ mask.cpus ∧ chunk * hexChunkSz ≤ cpu ∧ cpu < (chunk + 1) * hexChunkSz := by
  have hlt := chunkOf_lt mask chunk
  have hscan : strtoulHex (chunkText mask chunk ++ chunkTail mask chunk) =
      (chunkOf mask chunk, chunkTail mask chunk) := by
    rw [chunkText_eq]
    exact strtoulHex_digitText (by decide) (by omega) (by omega) (atComma_chunkTail mask chunk)
  have hbound : chunk * hexChunkSz + hexChunkSz ≤ cpuSetSize := by
    unfold hexChunkSz cpuSetSize
    omega
  obtain ⟨result, hset, hmem⟩ := @setChunk_spec chunk (chunkOf mask chunk) hexChunkSz set hbound
  refine ⟨result, ?_, fun cpu => ?_⟩
  · have hread : ¬ ((chunkText mask chunk ++ chunkTail mask chunk).length -
        (chunkTail mask chunk).length > hexCharSize) := by
      rw [List.length_append, chunkText_length, Nat.add_sub_cancel]
      decide
    unfold readChunk
    rw [hscan]
    dsimp only
    rw [if_neg hread, Nat.mod_eq_of_lt hlt]
    refine (if_neg ?_).trans hset
    cases chunk with
    | zero => exact Bool.false_ne_true
    | succ chunk =>
        have hnext : nexttoken (some (chunkTail mask (chunk + 1))) ',' =
            some (chunkText mask chunk ++ chunkTail mask chunk) := nexttoken_cons_self ',' _
        rw [hnext]
        simp [chunkTail]
  · rw [hmem]
    apply or_congr_right
    constructor
    · rintro ⟨j, hj, hbit, rfl⟩
      rw [testBit_chunkOf mask chunk hj] at hbit
      refine ⟨CpuSet.isset_eq_true.mp hbit, Nat.le_add_right _ _, ?_⟩
      rw [Nat.add_mul, Nat.one_mul]
      omega
    · rintro ⟨hcpu, hge, hless⟩
      rw [Nat.add_mul, Nat.one_mul] at hless
      refine ⟨cpu - chunk * hexChunkSz, by omega, ?_, by omega⟩
      rw [testBit_chunkOf mask chunk (by omega), Nat.add_sub_cancel' hge]
      exact CpuSet.isset_eq_true.mpr hcpu

/-- Chunks are read one behind the other. -/
theorem hexToCpusetLoop_hexText (mask : CpuSet) {chunk : Nat} (hchunk : chunk < 32)
    (set : CpuSet) : ∃ result,
      hexToCpusetLoop chunk (chunkText mask chunk ++ chunkTail mask chunk) set = some result ∧
        ∀ cpu, cpu ∈ result.cpus ↔
          cpu ∈ set.cpus ∨ cpu ∈ mask.cpus ∧ cpu < (chunk + 1) * hexChunkSz := by
  -- From the highest chunk down; the set holds what the chunks in front have added.
  induction chunk generalizing set with
  | zero =>
      obtain ⟨result, hread, hmem⟩ := readChunk_chunkText mask hchunk set
      refine ⟨result, ?_, by simpa using hmem⟩
      have hnext : nexttoken (some (chunkTail mask 0)) ',' = none := rfl
      rw [hexToCpusetLoop, nexttoken_chunkText, hread]
      simp only [Option.bind_eq_bind, Option.bind_some]
      split
      · rfl
      next q hq =>
        exact absurd (hnext.symm.trans hq) (by simp)
  | succ chunk ih =>
      obtain ⟨added, hread, hadded⟩ := readChunk_chunkText mask hchunk set
      obtain ⟨result, hloop, hresult⟩ := ih (by omega) added
      have hnext : nexttoken (some (chunkTail mask (chunk + 1))) ',' =
          some (chunkText mask chunk ++ chunkTail mask chunk) := nexttoken_cons_self ',' _
      refine ⟨result, ?_, fun cpu => ?_⟩
      · rw [hexToCpusetLoop, nexttoken_chunkText, hread]
        simp only [Option.bind_eq_bind, Option.bind_some]
        split
        next hq =>
          exact absurd (hnext.symm.trans hq) (by simp)
        next q hq =>
          obtain rfl := Option.some_inj.mp (hnext.symm.trans hq)
          exact hloop
      · rw [hresult, hadded, or_assoc]
        apply or_congr_right
        rw [← and_or_left]
        apply and_congr_right
        intro hcpu
        rw [Nat.add_mul (chunk + 1)]
        omega

/-- The text of a set has no mark in front. -/
theorem hexText_take (mask : CpuSet) : (hexText mask).take 2 ≠ ['0', 'x'] := by
  intro hmark
  have hmem : 'x' ∈ chunkText mask (cpusetLastBit mask / hexChunkSz) := by
    have htake : (hexText mask).take 2 =
        (chunkText mask (cpusetLastBit mask / hexChunkSz)).take 2 :=
      List.take_append_of_le_length (by rw [chunkText_length]; decide)
    refine List.mem_of_mem_take (i := 2) ?_
    rw [← htake, hmark]
    simp
  rw [chunkText_eq] at hmem
  obtain ⟨d, hd, hc⟩ := exists_of_mem_digitText hmem
  exact (digitChar_reads hd).2.2.2.2.2 (by rw [← hc]; rfl)

theorem hexText_length_pos (mask : CpuSet) : 0 < (hexText mask).length := by
  rw [hexText, List.length_append, chunkText_length]
  omega

/-- What `hex_to_cpuset` does behind the mark. -/
theorem hexText_reads (mask : CpuSet) :
    (if countChunks (hexText mask) = 1 then sToCpuset .zero (hexText mask) (hexText mask).length
      else match hexToCpusetLoop (countChunks (hexText mask) - 1) (hexText mask) .zero with
        | none => (-1, .zero)
        | some result => (0, result)) = (0, mask) := by
  have hcount := countChunks_hexText mask (cpusetLastBit mask / hexChunkSz)
  have hlast := lastChunk_lt mask
  have hbelow : ∀ cpu ∈ mask.cpus, cpu < (cpusetLastBit mask / hexChunkSz + 1) * hexChunkSz := by
    intro cpu hcpu
    have hle := le_cpusetLastBit hcpu
    unfold hexChunkSz
    omega
  rw [hexText, hcount]
  generalize cpusetLastBit mask / hexChunkSz = chunk at hlast hbelow
  split
  next hone =>
    obtain rfl : chunk = 0 := by omega
    -- A single chunk is not split into chunks, but read digit by digit from its end.
    obtain ⟨result, hloop, hmem⟩ :=
      sToCpusetLoop_nibbles 8 (chunkOf mask 0) 0 .zero (by decide)
    have hresult : result = mask := by
      apply CpuSet.ext
      ext cpu
      rw [hmem]
      constructor
      · rintro (hzero | ⟨j, hj, hbit, rfl⟩)
        · simp at hzero
        · rw [testBit_chunkOf mask 0 hj] at hbit
          simpa using hbit
      · intro hcpu
        have hlt := hbelow cpu hcpu
        rw [Nat.zero_add, Nat.one_mul] at hlt
        refine Or.inr ⟨cpu, hlt, ?_, (Nat.zero_add cpu).symm⟩
        rw [testBit_chunkOf mask 0 hlt]
        simpa using hcpu
    rw [chunkTail, List.append_nil, sToCpuset, List.take_length, chunkText_eq, digitText,
      List.reverse_reverse, hloop, hresult]
  next hmore =>
    obtain ⟨result, hloop, hmem⟩ := hexToCpusetLoop_hexText mask hlast .zero
    have hresult : result = mask := by
      apply CpuSet.ext
      ext cpu
      rw [hmem]
      constructor
      · rintro (hzero | ⟨hcpu, -⟩)
        · simp at hzero
        · exact hcpu
      · exact fun hcpu => Or.inr ⟨hcpu, hbelow cpu hcpu⟩
    rw [Nat.add_sub_cancel, hloop, hresult]

/-- A CPU set is what `hex_to_cpuset` makes of its hexadecimal form, with or without the mark in
front, and what Lua makes of the string. -/
theorem lCpuSetTohex_roundTrip (mask : CpuSet) :
    ∃ str, cpusetToHex mask [] (1024 - 2) = some (str, str.length) ∧
      lCpuSetTohex mask = some ('0' :: 'x' :: str) ∧
      hexToCpuset ('0' :: 'x' :: str) = (0, mask) ∧ hexToCpuset str = (0, mask) ∧
      lCpuSetNew (.string ('0' :: 'x' :: str)) = some (.ok mask) := by
  have hwrite := cpusetToHex_eq mask []
  have hmarked : hexToCpuset ('0' :: 'x' :: hexText mask) = (0, mask) := hexText_reads mask
  refine ⟨hexText mask, hwrite, ?_, hmarked, ?_, ?_⟩
  · rw [lCpuSetTohex, hwrite]
    rfl
  · rw [hexToCpuset, if_neg (Nat.ne_of_gt (hexText_length_pos mask)), if_neg (hexText_take mask)]
    exact hexText_reads mask
  · have hmark : ('0' :: 'x' :: hexText mask).take 2 = ['0', 'x'] := rfl
    rw [lCpuSetNew, luaToCpuSetp, luaStringToCpuSetp, if_pos (Or.inl hmark), hmarked]
    rfl

end SlurmSpank.LuaSchedutils
