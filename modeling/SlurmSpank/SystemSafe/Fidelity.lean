import SlurmSpank.SystemSafe.Wire

/-! # What arrives of a request

A string arrives as the bytes that its length as an `int` counts. The server reads it when that
length is positive and one more is still an `int`. An entry of the environment is edited on the
way. A request arrives as what it was, with an empty `LD_PRELOAD`, under conditions on its
strings that are stated here exactly.
-/

namespace SlurmSpank.SystemSafe

open SlurmSpank.Foundation

/-- What the server reads of a string. -/
def arrives (str : CString) : Option CString :=
  if 0 < asInt str.1.length ∧ asInt str.1.length + 1 < 0x80000000 then
    some ⟨str.1.take (asInt str.1.length).toNat,
      fun hmem => str.2 (List.mem_of_mem_take hmem)⟩
  else none

/-- What the server makes of an entry it has read. -/
def edited (entry : CString) : Option CString :=
  if ldPreload.take 10 <+: entry.1 then
    if 11 ≤ entry.1.length then
      some ⟨entry.1.take 11, fun hmem => entry.2 (List.mem_of_mem_take hmem)⟩
    else none
  else some entry

/-- An entry as it is meant to arrive: `LD_PRELOAD` has an empty value. -/
def emptied (entry : CString) : CString :=
  if ldPreload <+: entry.1 then ⟨ldPreload, by decide⟩ else entry

/-- A request as it is meant to arrive. -/
def Request.expected (request : Request) : Request :=
  { request with env := request.env.map emptied }

/-! ## Strings in memory -/

/-- A string with its NUL in memory. -/
def terminated (str : CString) : Block := str.1.map some ++ [some 0]

/-- A block that holds a string and its NUL is read as that string. -/
theorem cString_append {bytes : List UInt8} (hbytes : (0 : UInt8) ∉ bytes) (rest : Block) :
    Block.cString (bytes.map some ++ some 0 :: rest) = some ⟨bytes, hbytes⟩ := by
  induction bytes with
  | nil => rfl
  | cons byte bytes ih =>
      have hbyte : byte ≠ 0 := fun heq => hbytes (heq ▸ List.mem_cons_self)
      have hrest : (0 : UInt8) ∉ bytes := fun hmem => hbytes (List.mem_cons_of_mem _ hmem)
      simp only [List.map_cons, List.cons_append, Block.cString, dif_neg hbyte, ih hrest,
        Option.map_some]

theorem cString_terminated (str : CString) : Block.cString (terminated str) = some str :=
  cString_append str.2 []

theorem hasPrefix_append {name : List UInt8} (hname : (0 : UInt8) ∉ name) (bytes : List UInt8) :
    Block.hasPrefix name (bytes.map some ++ [some 0]) = some (decide (name <+: bytes)) := by
  induction name generalizing bytes with
  | nil => simp [Block.hasPrefix]
  | cons c name ih =>
      have hc : c ≠ 0 := fun heq => hname (heq ▸ List.mem_cons_self)
      have hrest : (0 : UInt8) ∉ name := fun hmem => hname (List.mem_cons_of_mem _ hmem)
      cases bytes with
      | nil => simp [Block.hasPrefix, hc]
      | cons byte bytes =>
          simp only [List.map_cons, List.cons_append, Block.hasPrefix, ih hrest,
            List.cons_prefix_cons]
          split
          next heq => simp [heq]
          next hne => simp [hne]

/-- The edit of an entry in memory is the edit of its string. -/
theorem emptyPreload_terminated (entry : CString) :
    (emptyPreload (terminated entry)).bind Block.cString = edited entry ∧
      (emptyPreload (terminated entry) = none ↔ edited entry = none) := by
  unfold emptyPreload edited
  rw [terminated, hasPrefix_append (by decide), ← terminated]
  by_cases hbegins : ldPreload.take 10 <+: entry.1
  · have hlength : (terminated entry).length = entry.1.length + 1 := by simp [terminated]
    simp only [hbegins, decide_true, if_true, hlength]
    by_cases hlong : 11 ≤ entry.1.length
    · rw [if_pos (Nat.lt_succ_of_le hlong), if_pos hlong]
      have hset : (terminated entry).set 11 (some 0) =
          (entry.1.take 11).map some ++ some 0 :: (terminated entry).drop 12 := by
        rw [List.set_eq_take_append_cons_drop, if_pos (by omega), terminated,
          List.take_append_of_le_length (by simpa using hlong), List.map_take]
      rw [hset]
      exact ⟨cString_append (fun hmem => entry.2 (List.mem_of_mem_take hmem)) _, by simp⟩
    · rw [if_neg (fun hlt => hlong (Nat.le_of_lt_succ hlt)), if_neg hlong]
      exact ⟨rfl, by simp⟩
  · simp only [hbegins, decide_false, if_false]
    exact ⟨cString_terminated entry, by simp⟩

/-! ## Strings on the wire -/

theorem wire_eq (str : CString) :
    wire str = intBytes (asInt str.1.length) ++
      (if asInt str.1.length < 0 then [] else str.1.take (asInt str.1.length).toNat) := by
  simp only [wire, writeString, List.flatMap_cons, List.flatMap_nil, Sending.bytes_writeN,
    List.append_nil]

/-- An `int` on the wire is read whole. -/
theorem run_readBlock_int (i : Int) (rest : List UInt8) :
    (Reader.readBlock 4 : Reader UInt8 (Option (List UInt8))).run (intBytes i ++ rest) =
      some (some (intBytes i), rest) :=
  Reader.run_readBlock (intBytes_length i) rest

theorem asInt_length_bounds (str : CString) :
    -0x80000000 ≤ asInt str.1.length ∧ asInt str.1.length < 0x80000000 := by
  unfold asInt
  split <;> omega

theorem run_readString_int {i : Int} (hlow : -0x80000000 ≤ i) (hhigh : i < 0x80000000)
    (rest : List UInt8) : readString.run (intBytes i ++ rest) = (readBody i).run rest := by
  have hlength : ¬ (intBytes i).length = 0 := by rw [intBytes_length]; decide
  rw [readString, Reader.run_bind_of_run (run_readBlock_int i rest)]
  simp only [if_neg hlength]
  rw [intOfBytes_intBytes hlow hhigh]

/-- A positive length with its bytes becomes a string in a block. -/
theorem run_readBody {len : Int} (hpos : 0 < len) (hlt : len + 1 < 0x80000000)
    {front : List UInt8} (hlength : front.length = len.toNat) (rest : List UInt8) :
    (readBody len).run (front ++ rest) =
      some ((len, some (front.map some ++ [some 0])), rest) := by
  have hmalloc : malloc (asInt (len + 1)) = some (List.replicate (len.toNat + 1) none) := by
    rw [asInt_of_lt (by omega) hlt, malloc, if_neg (by omega), Int.toNat_add (by omega) (by decide)]
    rfl
  have hstore : ((Block.store (List.replicate (len.toNat + 1) none) front).set len.toNat (some 0)) =
      front.map some ++ [some 0] := by
    rw [Block.store, List.drop_replicate, hlength, Nat.add_sub_cancel_left,
      List.set_append_right _ _ (by simp [hlength])]
    simp [hlength]
  rw [readBody, hmalloc, if_neg (by omega), Reader.run_bind, Reader.run_readBlock hlength]
  simp only [Option.bind_some, hstore, hlength, if_neg (by omega : ¬ len.toNat = 0)]
  rfl

/-- Without a positive length, or with the greatest `int`, nothing is read that can be used. -/
theorem run_readBody_of_not {len : Int} (hlen : ¬ (0 < len ∧ len + 1 < 0x80000000))
    (hlow : -0x80000000 ≤ len) (hhigh : len < 0x80000000) (rest : List UInt8) :
    (∃ buf, (readBody len).run rest = some ((-1, buf), rest)) ∨
      len = 0 ∧ (readBody len).run rest = some ((0, some [none]), rest) := by
  by_cases hmalloc : asInt (len + 1) < 0
  · refine Or.inl ⟨none, ?_⟩
    rw [readBody, malloc, if_pos hmalloc]
    rfl
  · have hsize : asInt (len + 1) = len + 1 := by
      by_cases hmax : len + 1 < 0x80000000
      · exact asInt_of_lt (by omega) hmax
      · unfold asInt at hmalloc
        split at hmalloc <;> omega
    rw [readBody, malloc, if_neg hmalloc, hsize]
    by_cases hneg : len < 0
    · refine Or.inl ⟨some (List.replicate (len + 1).toNat none), ?_⟩
      simp only [if_pos hneg]
      rfl
    · have hlt := asInt_lt (len + 1)
      have hzero : len = 0 := by omega
      subst hzero
      exact Or.inr ⟨rfl, rfl⟩

/-- A string that arrives is read into a block, and nothing behind it is touched. -/
theorem run_readString {str arrived : CString} (harrives : arrives str = some arrived)
    (rest : List UInt8) :
    readString.run (wire str ++ rest) =
      some ((asInt str.1.length, some (terminated arrived)), rest) := by
  obtain ⟨hlow, hhigh⟩ := asInt_length_bounds str
  unfold arrives at harrives
  split at harrives
  next hlen =>
    cases harrives
    have hle : asInt str.1.length ≤ str.1.length := asInt_le (Int.natCast_nonneg _)
    have hfront : (str.1.take (asInt str.1.length).toNat).length = (asInt str.1.length).toNat := by
      rw [List.length_take]
      omega
    rw [wire_eq, if_neg (by omega), List.append_assoc, run_readString_int hlow hhigh,
      run_readBody hlen.1 hlen.2 hfront, terminated]
  next => cases harrives

/-- For a string that does not arrive, `read_string` fails, or leaves a block without a string. -/
theorem run_readString_of_none {str : CString} (harrives : arrives str = none)
    (rest : List UInt8) :
    (∃ buf rest', readString.run (wire str ++ rest) =
        some ((-1, buf), rest')) ∨
      readString.run (wire str ++ rest) =
        some ((0, some [none]), rest) := by
  obtain ⟨hlow, hhigh⟩ := asInt_length_bounds str
  unfold arrives at harrives
  split at harrives
  next => cases harrives
  next hlen =>
    rw [wire_eq, List.append_assoc, run_readString_int hlow hhigh]
    rcases run_readBody_of_not hlen hlow hhigh _ with ⟨buf, hrun⟩ | ⟨hzero, hrun⟩
    · exact Or.inl ⟨buf, _, hrun⟩
    · right
      rw [hrun, hzero]
      rfl

/-! ## The environment -/

/-- What the server has of an entry. -/
def entryArrives (entry : CString) : Option CString := (arrives entry).bind edited

/-- The entries arrive in order, or the first that does not ends the request. -/
theorem run_readEntries (env : List CString) (entries : List Block) (rest : List UInt8) :
    (∃ blocks env', env.mapM entryArrives = some env' ∧ blocks.mapM Block.cString = some env' ∧
      (readEntries env.length entries).run (env.flatMap wire ++ rest) =
        some (.ok (entries ++ blocks), rest)) ∨
    (env.mapM entryArrives = none ∧ ∃ fate rest', (∀ request, fate ≠ .serves request) ∧
      (readEntries env.length entries).run (env.flatMap wire ++ rest) =
        some (.error fate, rest')) := by
  induction env generalizing entries with
  | nil => exact Or.inl ⟨[], [], rfl, rfl, by simp [readEntries]⟩
  | cons entry env ih =>
      rw [List.flatMap_cons, List.append_assoc, List.length_cons, readEntries, Reader.run_bind,
        List.mapM_cons]
      cases harrives : arrives entry with
      | none =>
          refine Or.inr ⟨by simp [entryArrives, harrives], ?_⟩
          rcases run_readString_of_none harrives (env.flatMap wire ++ rest) with
            ⟨buf, rest', hrun⟩ | hrun
          · rw [hrun]
            exact ⟨.exits, rest', fun _ heq => (by cases heq), rfl⟩
          · rw [hrun]
            exact ⟨.undefined, _, fun _ heq => (by cases heq), rfl⟩
      | some arrived =>
          have hpos : ¬ asInt entry.1.length < 0 := by
            unfold arrives at harrives
            split at harrives
            next hlen => omega
            next => cases harrives
          obtain ⟨hedit, hnone⟩ := emptyPreload_terminated arrived
          rw [run_readString harrives, Option.bind_some]
          simp only [if_neg hpos, Option.bind_some]
          cases hblock : emptyPreload (terminated arrived) with
          | none =>
              have hedited : edited arrived = none := hnone.mp hblock
              exact Or.inr ⟨by simp [entryArrives, harrives, hedited],
                .undefined, _, fun _ heq => (by cases heq), rfl⟩
          | some block =>
              rw [hblock, Option.bind_some] at hedit
              cases hedited : edited arrived with
              | none => exact absurd (hnone.mpr hedited) (by simp [hblock])
              | some entry' =>
                  have hentry : entryArrives entry = some entry' := by
                    rw [entryArrives, harrives, Option.bind_some, hedited]
                  rcases ih (entries ++ [block]) with
                    ⟨blocks, env', henv, hblocks, hrun⟩ | ⟨henv, fate, rest', hfate, hrun⟩
                  · refine Or.inl ⟨block :: blocks, entry' :: env', ?_, ?_, ?_⟩
                    · simp [hentry, henv]
                    · simp [List.mapM_cons, hedit, hedited, hblocks]
                    · rw [hrun, List.append_assoc, List.singleton_append]
                  · exact Or.inr ⟨by simp [henv, hentry], fate, rest', hfate, hrun⟩

theorem run_readEnv_int {i : Int} (hlow : -0x80000000 ≤ i) (hhigh : i < 0x80000000)
    (rest : List UInt8) : readEnv.run (intBytes i ++ rest) = (readCounted i).run rest := by
  rw [readEnv, Reader.run_bind_of_run (run_readBlock_int i rest)]
  simp only []
  rw [intOfBytes_intBytes hlow hhigh]

/-- `read_env` behind a count that was counted. -/
theorem run_readCounted {env : List CString} (hcount : env.length < 0x80000000)
    (rest : List UInt8) :
    (∃ blocks env', env.length + 1 < 0x80000000 ∧ env.mapM entryArrives = some env' ∧
      blocks.mapM Block.cString = some env' ∧
      (readCounted env.length).run (env.flatMap wire ++ rest) = some (.ok blocks, rest)) ∨
    (¬ (env.length + 1 < 0x80000000 ∧ (env.mapM entryArrives).isSome) ∧
      ∃ fate rest', (∀ request, fate ≠ .serves request) ∧
      (readCounted env.length).run (env.flatMap wire ++ rest) = some (.error fate, rest')) := by
  by_cases hlast : env.length + 1 < 0x80000000
  · have hmalloc : malloc (asInt ((env.length : Int) + 1)) =
        some (List.replicate (env.length + 1) none) := by
      rw [asInt_of_lt (by omega) (by omega), malloc, if_neg (by omega)]
      rfl
    rw [readCounted, hmalloc]
    simp only [if_neg (by omega : ¬ (env.length : Int) < 0), Int.toNat_natCast]
    rcases run_readEntries env [] rest with
      ⟨blocks, env', henv, hblocks, hrun⟩ | ⟨henv, fate, rest', hfate, hrun⟩
    · exact Or.inl ⟨blocks, env', hlast, henv, hblocks, hrun⟩
    · exact Or.inr ⟨by simp [henv], fate, rest', hfate, hrun⟩
  · have hmalloc : malloc (asInt ((env.length : Int) + 1)) = none := by
      rw [malloc, if_pos]
      unfold asInt
      split <;> omega
    rw [readCounted, hmalloc]
    exact Or.inr ⟨fun h => hlast h.1, .exits, env.flatMap wire ++ rest,
      fun _ heq => (by cases heq), rfl⟩

/-! ## The request -/

/-- What the server serves for a request. -/
def Request.arrived (request : Request) : Option Request :=
  if request.env.length + 1 < 0x80000000 then
    (arrives request.cmd).bind fun cmd => (arrives request.path).bind fun path =>
      (request.env.mapM entryArrives).map fun env => ⟨cmd, path, env⟩
  else none

theorem Request.bytes_eq {request : Request} (hcount : request.env.length < 0x80000000) :
    request.bytes = wire request.cmd ++
      (wire request.path ++ (intBytes request.env.length ++ request.env.flatMap wire)) := by
  have hint : asInt request.env.length = request.env.length := asInt_of_lt (by omega) (by omega)
  rw [Request.bytes, List.flatMap_append, List.flatMap_append, writeEnv, List.flatMap_cons,
    Sending.bytes_write, hint, List.flatMap_assoc, List.append_assoc]
  rfl

theorem arrives_pos {str arrived : CString} (harrives : arrives str = some arrived) :
    0 < asInt str.1.length := by
  unfold arrives at harrives
  split at harrives
  next hlen => exact hlen.1
  next => cases harrives

/-- The server serves what arrives, and leaves the stream behind it; or it serves nothing. -/
theorem run_handleSystemRequest {request : Request}
    (hcount : request.env.length < 0x80000000) (rest : List UInt8) :
    (∃ arrived, request.arrived = some arrived ∧
      handleSystemRequest.run (request.bytes ++ rest) = some (.serves arrived, rest)) ∨
    (request.arrived = none ∧ ∃ fate rest', (∀ request, fate ≠ .serves request) ∧
      handleSystemRequest.run (request.bytes ++ rest) = some (fate, rest')) := by
  rw [Request.bytes_eq hcount, List.append_assoc, List.append_assoc, List.append_assoc,
    handleSystemRequest]
  unfold Request.arrived
  have hcounted := run_readCounted hcount rest
  have hlow : -0x80000000 ≤ (request.env.length : Int) := by omega
  have hhigh : (request.env.length : Int) < 0x80000000 := by omega
  cases hcmd : arrives request.cmd with
  | none =>
      refine Or.inr ⟨by simp, ?_⟩
      rcases run_readString_of_none hcmd _ with ⟨buf, rest', hrun⟩ | hrun
      · exact ⟨.exits, rest', fun _ heq => (by cases heq), Reader.run_bind_of_run hrun _⟩
      · exact ⟨.exits, _, fun _ heq => (by cases heq), Reader.run_bind_of_run hrun _⟩
  | some cmd =>
      have hpos := arrives_pos hcmd
      rw [Reader.run_bind_of_run (run_readString hcmd _)]
      simp only [if_neg (by omega : ¬ asInt request.cmd.1.length < 0),
        if_neg (by omega : ¬ asInt request.cmd.1.length = 0)]
      cases hpath : arrives request.path with
      | none =>
          refine Or.inr ⟨by simp, ?_⟩
          rcases run_readString_of_none hpath _ with ⟨buf, rest', hrun⟩ | hrun
          · exact ⟨.exits, rest', fun _ heq => (by cases heq), Reader.run_bind_of_run hrun _⟩
          · rw [Reader.run_bind_of_run hrun]
            simp only [if_neg (by decide : ¬ (0 : Int) < 0)]
            rw [Reader.run_bind, run_readEnv_int hlow hhigh]
            rcases hcounted with ⟨blocks, env', _, _, _, hrun'⟩ | ⟨_, fate, rest', hfate, hrun'⟩
            · rw [hrun']
              refine ⟨.undefined, rest, fun _ heq => (by cases heq), ?_⟩
              simp [serve, Block.cString, cString_terminated]
            · rw [hrun']
              exact ⟨fate, rest', hfate, rfl⟩
      | some path =>
          have hpos := arrives_pos hpath
          rw [Reader.run_bind_of_run (run_readString hpath _)]
          simp only [if_neg (by omega : ¬ asInt request.path.1.length < 0)]
          rw [Reader.run_bind, run_readEnv_int hlow hhigh]
          rcases hcounted with
            ⟨blocks, env', hlast, henv, hblocks, hrun⟩ | ⟨hnot, fate, rest', hfate, hrun⟩
          · refine Or.inl ⟨⟨cmd, path, env'⟩, by simp [hlast, henv], ?_⟩
            rw [hrun]
            simp [serve, cString_terminated, hblocks]
          · refine Or.inr ⟨?_, fate, rest', hfate, by rw [hrun]; rfl⟩
            split
            next hlast =>
              cases henv : request.env.mapM entryArrives with
              | none => simp
              | some env' => exact absurd ⟨hlast, by simp [henv]⟩ hnot
            next => rfl

end SlurmSpank.SystemSafe
