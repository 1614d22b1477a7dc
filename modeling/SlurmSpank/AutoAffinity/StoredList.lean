import SlurmSpank.AutoAffinity.OptionErrors

/-! # What an argument stores

Of the list options in an argument, the one that is stored is the first that is not refused. The
number of elements goes with it. A stored list of CPUs gives the ids of its walks, up to the
number of elements, unless its first element is no range.
-/

namespace SlurmSpank.AutoAffinity

open Foundation Lib

/-! ## The option that is stored -/

/-- The list option that is stored for a list of strings. -/
inductive Stores : List Text → Option ListOption → Prop
  | nil : Stores [] none
  | option {str : Text} {l : List Text} {stored : Option ListOption} (hplain : IsPlain str)
      (hrest : Stores l stored) : Stores (str :: l) stored
  | masks {str : Text} {l : List Text} (hcpus : "cpus=".toList.isPrefixOf str = false)
      (hmasks : "masks=".toList.isPrefixOf str = true) :
      Stores (str :: l) (some (.masks (str.drop 6 :: l)))
  | cpus {str : Text} {l : List Text} (hcpus : "cpus=".toList.isPrefixOf str = true)
      (htaken : ¬ ListRefused ((joinCommas (str.drop 5 :: l)).take 4095)) :
      Stores (str :: l) (some (.cpus (str.drop 5 :: l)))
  | refused {str : Text} {l : List Text} {stored : Option ListOption}
      (hcpus : "cpus=".toList.isPrefixOf str = true)
      (hrefused : ListRefused ((joinCommas (str.drop 5 :: l)).take 4095))
      (hrest : Stores (str.drop 5 :: l) stored) : Stores (str :: l) stored

/-- At most one option is stored. -/
theorem Stores.unique {parts : List Text} {first second : Option ListOption}
    (hfirst : Stores parts first) (hsecond : Stores parts second) : first = second := by
  induction hfirst with
  | nil =>
      cases hsecond
      rfl
  | option hplain _ ih =>
      cases hsecond with
      | option _ hrest => exact ih hrest
      | masks _ hmasks => exact Bool.noConfusion (hplain.2.symm.trans hmasks)
      | cpus hcpus _ => exact Bool.noConfusion (hplain.1.symm.trans hcpus)
      | refused hcpus _ _ => exact Bool.noConfusion (hplain.1.symm.trans hcpus)
  | masks hnot hmasks =>
      cases hsecond with
      | option hplain _ => exact Bool.noConfusion (hplain.2.symm.trans hmasks)
      | masks _ _ => rfl
      | cpus hcpus _ => exact Bool.noConfusion (hnot.symm.trans hcpus)
      | refused hcpus _ _ => exact Bool.noConfusion (hnot.symm.trans hcpus)
  | cpus hcpus htaken =>
      cases hsecond with
      | option hplain _ => exact Bool.noConfusion (hplain.1.symm.trans hcpus)
      | masks hnot _ => exact Bool.noConfusion (hnot.symm.trans hcpus)
      | cpus _ _ => rfl
      | refused _ hrefused _ => exact absurd hrefused htaken
  | refused hcpus hrefused _ ih =>
      cases hsecond with
      | option hplain _ => exact Bool.noConfusion (hplain.1.symm.trans hcpus)
      | masks hnot _ => exact Bool.noConfusion (hnot.symm.trans hcpus)
      | cpus _ htaken => exact absurd hrefused htaken
      | refused _ _ hrest => exact ih hrest

/-- The variables hold what is stored, and are as before where nothing is. -/
def Holds (stored : Option ListOption) (o o' : UserOptions) : Prop :=
  match stored with
  | none => o'.cpusList = o.cpusList ∧ o'.cpuMaskList = o.cpuMaskList
  | some (.cpus l) => o'.cpusList = some ((joinCommas l).take 4095) ∧ 0 < o'.nlistElements ∧
      cstrCount ((joinCommas l).take 4095) = some o'.nlistElements ∧
      o'.cpuMaskList = o.cpuMaskList
  | some (.masks l) => o'.cpusList = o.cpusList ∧
      o'.cpuMaskList = some ((cpuMaskListExpand l).map fun s => (strToCpuset s).2) ∧
      o'.nlistElements = (cpuMaskListExpand l).length

/-- The options that are no list leave the lists, and only `off` disables the plugin. -/
theorem parseOption_kept {opt : Text} {remote : Bool} {o o' : UserOptions} {rc : Int}
    (hparse : parseOption opt remote o = some (rc, o')) :
    o'.cpusList = o.cpusList ∧ o'.cpuMaskList = o.cpuMaskList ∧
      (opt ≠ "off".toList → o'.disabled = o.disabled) := by
  have hkept : ∀ {rc' : Int} {next : UserOptions}, some (rc', next) = some (rc, o') →
      next.cpusList = o.cpusList ∧ next.cpuMaskList = o.cpuMaskList ∧
        (opt ≠ "off".toList → next.disabled = o.disabled) →
      o'.cpusList = o.cpusList ∧ o'.cpuMaskList = o.cpuMaskList ∧
        (opt ≠ "off".toList → o'.disabled = o.disabled) := by
    intro rc' next heq hnext
    obtain ⟨-, rfl⟩ := Prod.mk.inj (Option.some_inj.mp heq)
    exact hnext
  unfold parseOption at hparse
  split at hparse
  next hoff => exact hkept hparse ⟨rfl, rfl, fun hne => absurd hoff hne⟩
  split at hparse
  · exact hkept hparse ⟨rfl, rfl, fun _ => rfl⟩
  split at hparse
  · exact hkept hparse ⟨rfl, rfl, fun _ => rfl⟩
  split at hparse
  · exact hkept hparse ⟨rfl, rfl, fun _ => rfl⟩
  split at hparse
  · exact hkept hparse ⟨rfl, rfl, fun _ => rfl⟩
  split at hparse
  · exact hkept hparse ⟨rfl, rfl, fun _ => rfl⟩
  split at hparse
  · exact absurd hparse (Option.some_ne_none _).symm
  · exact hkept hparse ⟨rfl, rfl, fun _ => rfl⟩

theorem Holds.of_kept {stored : Option ListOption} {o next o' : UserOptions}
    (hkept : next.cpusList = o.cpusList ∧ next.cpuMaskList = o.cpuMaskList)
    (hholds : Holds stored next o') : Holds stored o o' := by
  obtain ⟨hcpus, hmasks⟩ := hkept
  cases stored with
  | none => exact ⟨hholds.1.trans hcpus, hholds.2.trans hmasks⟩
  | some list =>
      cases list with
      | cpus l => exact ⟨hholds.1, hholds.2.1, hholds.2.2.1, hholds.2.2.2.trans hmasks⟩
      | masks l => exact ⟨hholds.1.trans hcpus, hholds.2⟩

/-- The masks that are stored are those of the strings. -/
theorem parseCpuMaskLoop_masks (l : List Text) (rc : Int) (masks : List CpuSet) :
    (parseCpuMaskLoop l rc masks).2 = masks ++ l.map fun s => (strToCpuset s).2 := by
  induction l generalizing rc masks with
  | nil => exact (List.append_nil masks).symm
  | cons s rest ih =>
      rw [parseCpuMaskLoop]
      dsimp only
      rw [ih, List.append_assoc]
      rfl

theorem not_listRefused_of_pos {str : Text} {count : Int} (hcount : cstrCount str = some count)
    (hpos : 0 < count) : ¬ ListRefused str := by
  intro hrefused
  obtain ⟨count', hle, hcount'⟩ := listRefused_iff.mp hrefused
  obtain rfl := Option.some_inj.mp (hcount.symm.trans hcount')
  omega

/-- The options on the way to the end of the parts: what is popped, and what the options are
before and after. -/
inductive Reads (remote : Bool) : List Text → List Text → UserOptions → UserOptions → Prop
  | nil {o : UserOptions} : Reads remote [] [] o o
  | option {str : Text} {l popped : List Text} {rc : Int} {o next o' : UserOptions}
      (hplain : IsPlain str) (hparse : parseOption str remote o = some (rc, next))
      (hrest : Reads remote l popped next o') : Reads remote (str :: l) (str :: popped) o o'
  | masks {str : Text} {l : List Text} {o : UserOptions}
      (hcpus : "cpus=".toList.isPrefixOf str = false)
      (hmasks : "masks=".toList.isPrefixOf str = true) :
      Reads remote (str :: l) [str] o (parseCpuMaskList (str.drop 6 :: l) o).2
  | cpus {str : Text} {l : List Text} {o : UserOptions} {count : Int}
      (hcpus : "cpus=".toList.isPrefixOf str = true)
      (hcount : cstrCount ((joinCommas (str.drop 5 :: l)).take 4095) = some count)
      (hpos : 0 < count) :
      Reads remote (str :: l) [str] o
        { o with
          nlistElements := count
          cpusList := some ((joinCommas (str.drop 5 :: l)).take 4095) }
  | refused {str : Text} {l popped : List Text} {o o' : UserOptions} {count : Int}
      (hcpus : "cpus=".toList.isPrefixOf str = true)
      (hcount : cstrCount ((joinCommas (str.drop 5 :: l)).take 4095) = some count)
      (hle : count ≤ 0)
      (hrest : Reads remote (str.drop 5 :: l) popped { o with nlistElements := count } o') :
      Reads remote (str :: l) (str :: popped) o o'

/-- A loop that returns has read the options up to its end. -/
theorem reads_of_returned {remote : Bool} {parts : List Text} {rc rc' : Int}
    {o o' : UserOptions} (hrun : (parseUserOptionLoop remote parts rc o).2 = .returned rc' o') :
    Reads remote parts (parseUserOptionLoop remote parts rc o).1 o o' := by
  -- A refused list stays, without the five characters in front of it.
  induction hweight : (parts.map fun str => str.length + 1).sum using Nat.strongRecOn
    generalizing parts rc o with
  | _ weight ih =>
      cases parts with
      | nil =>
          rw [parseUserOptionLoop_nil] at hrun ⊢
          obtain ⟨-, rfl⟩ := Ending.returned.inj hrun
          exact .nil
      | cons str l =>
          rw [List.map_cons, List.sum_cons] at hweight
          by_cases hcpus : "cpus=".toList.isPrefixOf str = true
          · rw [parseUserOptionLoop_cpus hcpus, parseCpusList_eq] at hrun ⊢
            cases hcount : cstrCount ((joinCommas (str.drop 5 :: l)).take 4095) with
            | none =>
                rw [hcount] at hrun
                exact Ending.noConfusion hrun
            | some count =>
                rw [hcount, Option.map_some] at hrun
                rw [Option.map_some]
                by_cases hle : count ≤ 0
                · rw [if_pos hle] at hrun ⊢
                  have hlength : "cpus=".toList.length ≤ str.length :=
                    (List.isPrefixOf_iff_prefix.mp hcpus).length_le
                  have hfive : "cpus=".toList.length = 5 := rfl
                  have hshorter :
                      ((str.drop 5 :: l : List Text).map fun str => str.length + 1).sum <
                        weight := by
                    simp only [List.map_cons, List.sum_cons, List.length_drop]
                    omega
                  exact .refused hcpus hcount hle (ih _ hshorter hrun rfl)
                · rw [if_neg hle] at hrun ⊢
                  dsimp only at hrun ⊢
                  rw [parseUserOptionLoop_nil] at hrun ⊢
                  obtain ⟨-, rfl⟩ := Ending.returned.inj hrun
                  exact .cpus hcpus hcount (Int.not_le.mp hle)
          · have hcpus' : "cpus=".toList.isPrefixOf str = false :=
              Bool.eq_false_of_not_eq_true hcpus
            by_cases hmasks : "masks=".toList.isPrefixOf str = true
            · rw [parseUserOptionLoop_masks hcpus' hmasks] at hrun ⊢
              obtain ⟨-, rfl⟩ := Ending.returned.inj hrun
              exact .masks hcpus' hmasks
            · have hplain : IsPlain str := ⟨hcpus', Bool.eq_false_of_not_eq_true hmasks⟩
              rw [parseUserOptionLoop_plain hplain] at hrun ⊢
              cases hparse : parseOption str remote o with
              | none =>
                  rw [hparse] at hrun
                  exact Ending.noConfusion hrun
              | some result =>
                  rw [hparse] at hrun
                  exact .option hplain hparse (ih _ (by omega) hrun rfl)

/-- When the options have been read, the variables hold the list that is stored. -/
theorem Reads.stores {remote : Bool} {parts popped : List Text} {o o' : UserOptions}
    (hreads : Reads remote parts popped o o') :
    ∃ stored, Stores parts stored ∧ Holds stored o o' := by
  induction hreads with
  | nil => exact ⟨none, .nil, rfl, rfl⟩
  | option hplain hparse _ ih =>
      obtain ⟨stored, hstored, hholds⟩ := ih
      obtain ⟨hcpus, hmasks, -⟩ := parseOption_kept hparse
      exact ⟨stored, .option hplain hstored, hholds.of_kept ⟨hcpus, hmasks⟩⟩
  | masks hcpus hmasks =>
      exact ⟨_, .masks hcpus hmasks, rfl,
        congrArg some (parseCpuMaskLoop_masks (cpuMaskListExpand _) 0 []), rfl⟩
  | cpus hcpus hcount hpos =>
      exact ⟨_, .cpus hcpus (not_listRefused_of_pos hcount hpos), rfl, hpos, hcount, rfl⟩
  | refused hcpus hcount hle _ ih =>
      obtain ⟨stored, hstored, hholds⟩ := ih
      exact ⟨stored, .refused hcpus (listRefused_iff.mpr ⟨_, hle, hcount⟩) hstored,
        hholds.of_kept ⟨rfl, rfl⟩⟩

/-! ## The ids of a stored list -/

/-- Behind `n` others, the walks in front of the first element that is no range come to this
id. -/
def StoredId (ps : List Text) (n id : Nat) : Prop :=
  ∃ before after ids, ps = before ++ after ∧ Walks before ids ∧ ids[n]? = some id

variable {a b s k n : Nat}

/-- Looking for an index along a walk finds the id of its turn, or goes on behind the walk. -/
theorem seekRange_eq_some (ha : a < 2 ^ 32) (hlength : RangeLength a b s k) {index : Nat}
    (hindex : index ≤ n) (hn : n < 2 ^ 31) :
    seekRange b s n (2 ^ 32) a index =
      some (match (rangeIds a s k)[n - index]? with
        | some id => .inl id
        | none => .inr (index + k)) := by
  have hturn : ∀ j < k, rangeTurn a s j ≤ b := fun j hj =>
    Nat.le_of_not_lt fun hgt => absurd (hlength.2 hgt) (Nat.not_le.mpr hj)
  have hearlier : ∀ j < n - index, wrapInt (index + j) ≠ n := by
    intro j hj
    rw [wrapInt_of_lt (by omega)]
    omega
  rw [seekRange_eq ha, findSome_range_eq_some_iff]
  by_cases hlt : n - index < k
  · have hget : (rangeIds a s k)[n - index]? = some (rangeTurn a s (n - index)) := by
      rw [rangeIds, List.getElem?_map, List.getElem?_range hlt, Option.map_some]
    have hhere : wrapInt (index + (n - index)) = n := by
      rw [wrapInt_of_lt (by omega)]
      omega
    refine ⟨n - index, Nat.lt_trans hlt hlength.lt, ?_, fun j hj => ?_⟩
    · rw [hget, if_pos (hturn _ hlt), if_pos hhere]
    · rw [if_pos (hturn j (Nat.lt_trans hj hlt)), if_neg (hearlier j hj)]
  · have hget : (rangeIds a s k)[n - index]? = none := by
      rw [List.getElem?_eq_none_iff, rangeIds_length]
      exact Nat.not_lt.mp hlt
    refine ⟨k, hlength.lt, ?_, fun j hj => ?_⟩
    · rw [hget, if_neg (Nat.not_le.mpr hlength.1)]
    · rw [if_pos (hturn j hj), if_neg (hearlier j (by omega))]

theorem cstrToCpuIdLoop_walks {before : List Text} {ids : List Nat} (hwalks : Walks before ids)
    (after : List Text) {index id : Nat} (hindex : index ≤ n) (hn : n < 2 ^ 31)
    (hid : ids[n - index]? = some id) :
    cstrToCpuIdLoop (2 ^ 32) n (before ++ after) index = some (wrapInt id) := by
  induction hwalks generalizing index with
  | nil => exact absurd hid (by simp)
  | @cons p rest a b s k more hread hlength hrest ih =>
      obtain ⟨hle, hlt⟩ := readElement_range hread
      rw [List.cons_append, cstrToCpuIdLoop, hread]
      dsimp only
      rw [seekRange_eq_some (Nat.lt_of_le_of_lt hle hlt) hlength hindex hn, Option.bind_some]
      rw [List.getElem?_append, rangeIds_length] at hid
      by_cases hhere : n - index < k
      · rw [if_pos hhere] at hid
        rw [hid]
      · have hget : (rangeIds a s k)[n - index]? = none := by
          rw [List.getElem?_eq_none_iff, rangeIds_length]
          exact Nat.not_lt.mp hhere
        rw [if_neg hhere, Nat.sub_sub] at hid
        rw [hget]
        exact ih (by omega) hid

/-- `cstr_to_cpu_id` finds the id that is stored at an index. -/
theorem cstrToCpuId_eq_storedId {str : Text} {id : Nat} (hn : n < 2 ^ 31)
    (hstored : StoredId (places str) n id) : cstrToCpuId str n = some (wrapInt id) := by
  obtain ⟨before, after, ids, hsplit, hwalks, hid⟩ := hstored
  unfold cstrToCpuId cstrToCpuIdWithin
  rw [hsplit]
  exact cstrToCpuIdLoop_walks hwalks after (Nat.zero_le n) hn hid

/-- A walk that ends starts within its range. -/
theorem RangeLength.pos (hlength : RangeLength a b s k) (hle : a ≤ b) (hb : b < 2 ^ 32) :
    0 < k := by
  rcases Nat.eq_zero_or_pos k with rfl | hpos
  · have hgt : b < rangeTurn a s 0 := hlength.1
    rw [rangeTurn_zero (Nat.lt_of_le_of_lt hle hb)] at hgt
    omega
  · exact hpos

theorem wrapInt_le {m : Nat} : wrapInt m ≤ m ∧ wrapInt m < 2 ^ 31 := by
  have hlow : wrapInt m < (2 ^ 32 + 1) / 2 := Int.bmod_lt (by decide)
  refine ⟨?_, by omega⟩
  rw [wrapInt_eq]
  split <;> omega

/-- Unless the first element is unread, a list that is counted stores an id at every index below
the count. -/
theorem storedId_of_lt_count {str : Text} {count : Int} (hcount : cstrCount str = some count)
    (hpos : 0 < count) (hread : readElement str ≠ .unread) (hn : (n : Int) < count) :
    ∃ id, StoredId (places str) n id := by
  rcases cstrCountLoop_eq_some_iff.mp hcount with ⟨ids, hwalks, hr⟩ | ⟨p, hreaches, hr⟩
  · rw [Nat.zero_add] at hr
    have hle := (@wrapInt_le ids.length).1
    have hlt : n < ids.length := by omega
    exact ⟨ids[n], places str, [], ids, (List.append_nil _).symm, hwalks,
      List.getElem?_eq_getElem hlt⟩
  · rcases hr with ⟨hunread, rfl⟩ | ⟨-, rfl⟩
    · obtain ⟨before, after, ids, hsplit, hwalks⟩ := hreaches
      cases hwalks with
      | nil =>
          have hfirst : str = p := (List.cons.inj hsplit).1
          exact absurd (hfirst ▸ hunread) hread
      | @cons q rest a b s k more hq hlength hrest =>
          obtain ⟨hle, hlt⟩ := readElement_range hq
          have hk := hlength.pos hle hlt
          obtain rfl : n = 0 := by omega
          refine ⟨rangeTurn a s 0, [q], rest ++ p :: after, rangeIds a s k ++ [], hsplit,
            .cons hq hlength .nil, ?_⟩
          rw [List.append_nil, rangeIds, List.getElem?_map, List.getElem?_range hk]
          rfl
    · omega

theorem not_storedId_of_unread {str : Text} {id : Nat} (hread : readElement str = .unread) :
    ¬ StoredId (places str) n id := by
  rintro ⟨before, after, ids, hsplit, hwalks, hid⟩
  cases hwalks with
  | nil => exact absurd hid (by simp)
  | cons hq hlength hrest =>
      have hfirst := (List.cons.inj hsplit).1
      rw [hfirst, hq] at hread
      exact Element.noConfusion hread

end SlurmSpank.AutoAffinity
