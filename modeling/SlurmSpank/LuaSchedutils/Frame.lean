import SlurmSpank.LuaSchedutils.Iterator

/-! # What a script leaves alone

The functions read any set that they are given, and some write one: the set that is their first
argument, or a set that they made. Each part of a function is framed by the addresses that were
handed out before, and the frames compose as the function does.
-/

namespace SlurmSpank.LuaSchedutils

open Foundation Lib

variable {Num α β : Type} {base : Nat} {may : Nat → Prop}

/-! ## Frames -/

/-- The sets below an address are as they were, but for those that may be written. -/
def Untouched (base : Nat) (may : Nat → Prop) (before after : Nat → CpuSet) : Prop :=
  ∀ ref < base, ¬ may ref → after ref = before ref

/-- How a function ends keeps to the frame, and its value has a property. -/
def Framed (base : Nat) (may : Nat → Prop) (memory : Nat → CpuSet) (post : α → Prop) :
    Result Num α → Prop
  | .done a m => base ≤ m.next ∧ Untouched base may memory m.memory ∧ post a
  | .raised m => base ≤ m.next ∧ Untouched base may memory m.memory
  | .crashed => True
  | .endless => True

/-- A function keeps to the frame from every machine. -/
structure Frames (base : Nat) (may : Nat → Prop) (f : Lua Num α) (post : α → Prop) : Prop where
  framed : ∀ m : Machine Num, base ≤ m.next → Framed base may m.memory post (f m)

/-- A function that leaves the sets alone and hands out no address. -/
def Quiet (f : Lua Num α) : Prop :=
  ∀ m : Machine Num, match f m with
    | .done _ m' => m'.memory = m.memory ∧ m'.next = m.next
    | .raised m' => m'.memory = m.memory ∧ m'.next = m.next
    | .crashed => True
    | .endless => True

theorem Framed.bind {f : Lua Num α} {g : α → Lua Num β} {post : α → Prop} {post' : β → Prop}
    {m : Machine Num} (hfirst : Framed base may m.memory post (f m))
    (hnext : ∀ a, post a → Frames base may (g a) post') :
    Framed base may m.memory post' ((f >>= g) m) := by
  rw [Lua.bind_apply]
  cases hf : f m with
  | done a m' =>
      rw [hf] at hfirst
      obtain ⟨hbase, huntouched, hpost⟩ := hfirst
      have hrest := (hnext a hpost).framed m' hbase
      simp only
      cases hg : g a m' with
      | done b m'' =>
          rw [hg] at hrest
          exact ⟨hrest.1, fun ref hlt hnot =>
            (hrest.2.1 ref hlt hnot).trans (huntouched ref hlt hnot), hrest.2.2⟩
      | raised m'' =>
          rw [hg] at hrest
          exact ⟨hrest.1, fun ref hlt hnot =>
            (hrest.2 ref hlt hnot).trans (huntouched ref hlt hnot)⟩
      | crashed => trivial
      | endless => trivial
  | raised m' =>
      rw [hf] at hfirst
      exact hfirst
  | crashed => trivial
  | endless => trivial

theorem Frames.bind {f : Lua Num α} {g : α → Lua Num β} {post : α → Prop} {post' : β → Prop}
    (hfirst : Frames base may f post) (hnext : ∀ a, post a → Frames base may (g a) post') :
    Frames base may (f >>= g) post' :=
  ⟨fun m hbase => Framed.bind (hfirst.framed m hbase) hnext⟩

theorem Framed.mono {post post' : α → Prop} {memory : Nat → CpuSet} {result : Result Num α}
    (hframed : Framed base may memory post result) (himp : ∀ a, post a → post' a) :
    Framed base may memory post' result := by
  cases result with
  | done a m => exact ⟨hframed.1, hframed.2.1, himp a hframed.2.2⟩
  | raised m => exact hframed
  | crashed => trivial
  | endless => trivial

theorem Frames.mono {f : Lua Num α} {post post' : α → Prop} (hframes : Frames base may f post)
    (himp : ∀ a, post a → post' a) : Frames base may f post' :=
  ⟨fun m hbase => (hframes.framed m hbase).mono himp⟩

theorem Frames.pure {a : α} {post : α → Prop} (hpost : post a) :
    Frames base may (Pure.pure a : Lua Num α) post :=
  ⟨fun _ hbase => ⟨hbase, fun _ _ _ => rfl, hpost⟩⟩

theorem Frames.crashed {post : α → Prop} :
    Frames base may (fun _ : Machine Num => .crashed) post := ⟨fun _ _ => trivial⟩

theorem Quiet.frames {f : Lua Num α} (hquiet : Quiet f) : Frames base may f fun _ => True := by
  constructor
  intro m hbase
  have hends := hquiet m
  cases hf : f m with
  | done a m' =>
      rw [hf] at hends
      exact ⟨hends.2 ▸ hbase, fun ref _ _ => congrFun hends.1 ref, trivial⟩
  | raised m' =>
      rw [hf] at hends
      exact ⟨hends.2 ▸ hbase, fun ref _ _ => congrFun hends.1 ref⟩
  | crashed => trivial
  | endless => trivial

/-! ## The operations -/

theorem raise_frames {post : α → Prop} : Frames base may (raise : Lua Num α) post :=
  ⟨fun _ hbase => ⟨hbase, fun _ _ _ => rfl⟩⟩

theorem getTop_quiet : Quiet (getTop : Lua Num Nat) := fun _ => ⟨rfl, rfl⟩

theorem valueAt_quiet (index : Nat) : Quiet (valueAt index : Lua Num (Option (Value Num))) :=
  fun _ => ⟨rfl, rfl⟩

theorem push_quiet (v : Value Num) : Quiet (push v) := fun _ => ⟨rfl, rfl⟩

theorem pushValue_quiet (index : Nat) : Quiet (pushValue index : Lua Num Unit) :=
  fun _ => ⟨rfl, rfl⟩

theorem remove_quiet (index : Nat) : Quiet (remove index : Lua Num Unit) := fun _ => ⟨rfl, rfl⟩

theorem replace_quiet (index : Nat) : Quiet (replace index : Lua Num Unit) := fun _ => ⟨rfl, rfl⟩

theorem pop_quiet (n : Nat) : Quiet (pop n : Lua Num Unit) := fun _ => ⟨rfl, rfl⟩

theorem setTop_quiet (top : Nat) : Quiet (setTop top : Lua Num Unit) := fun _ => ⟨rfl, rfl⟩

theorem cpuIsset_quiet (cpu : Nat) (ptr : Option Nat) :
    Quiet (cpuIsset cpu ptr : Lua Num Bool) := by
  intro m
  cases ptr with
  | none => trivial
  | some ref => exact ⟨rfl, rfl⟩

theorem readSet_quiet (ptr : Option Nat) : Quiet (readSet ptr : Lua Num CpuSet) := by
  intro m
  cases ptr with
  | none => trivial
  | some ref => exact ⟨rfl, rfl⟩

/-- A set that may be written, or a new one. -/
def Writable (base : Nat) (may : Nat → Prop) (ref : Nat) : Prop := may ref ∨ base ≤ ref

theorem lCpuSetAlloc_frames :
    Frames base may (lCpuSetAlloc : Lua Num Nat) (Writable base may) :=
  ⟨fun _ hbase => ⟨Nat.le_succ_of_le hbase, fun _ _ _ => rfl, Or.inr hbase⟩⟩

theorem untouched_write {m : Machine Num} {ref : Nat} (hwritable : Writable base may ref)
    (set : CpuSet) : Untouched base may m.memory (m.write ref set).memory := by
  intro other hlt hnot
  apply Machine.write_of_ne
  intro heq
  subst heq
  exact hwritable.elim hnot (Nat.not_le_of_lt hlt)

theorem writeSet_frames {ref : Nat} (hwritable : Writable base may ref) (set : CpuSet) :
    Frames base may (writeSet ref set : Lua Num Unit) fun _ => True :=
  ⟨fun _ hbase => ⟨hbase, untouched_write hwritable set, trivial⟩⟩

theorem update_frames {ptr : Option Nat} (hptr : ∀ ref ∈ ptr, Writable base may ref)
    (change : CpuSet → CpuSet) :
    Frames base may (update change ptr : Lua Num Unit) fun _ => True := by
  constructor
  intro m hbase
  cases ptr with
  | none => trivial
  | some ref => exact ⟨hbase, untouched_write (hptr ref rfl) _, trivial⟩

theorem cpuSet_frames {ptr : Option Nat} (hptr : ∀ ref ∈ ptr, Writable base may ref) (cpu : Int) :
    Frames base may (cpuSet cpu ptr : Lua Num Unit) fun _ => True := by
  unfold cpuSet
  split
  · exact update_frames hptr _
  · exact Frames.pure trivial

theorem cpuClr_frames {ptr : Option Nat} (hptr : ∀ ref ∈ ptr, Writable base may ref) (cpu : Int) :
    Frames base may (cpuClr cpu ptr : Lua Num Unit) fun _ => True := by
  unfold cpuClr
  split
  · exact update_frames hptr _
  · exact Frames.pure trivial

theorem checkNumber_frames (num : NumberOps Num) (index : Nat) :
    Frames base may (checkNumber num index) fun _ => True := by
  refine Frames.bind (valueAt_quiet index).frames fun v _ => ?_
  split
  · exact Frames.pure trivial
  · split
    · exact Frames.pure trivial
    · exact raise_frames
  · exact raise_frames

theorem toNumber_frames (num : NumberOps Num) (index : Nat) :
    Frames base may (toNumber num index) fun _ => True := by
  refine Frames.bind (valueAt_quiet index).frames fun v _ => ?_
  split <;> exact Frames.pure trivial

theorem storeSet_frames (index : Nat) {setp : Nat} (hnew : Writable base may setp)
    (converted : Option (Except Text CpuSet)) :
    Frames base may (storeSet index setp converted : Lua Num (Option Nat))
      fun ptr => ∀ ref ∈ ptr, Writable base may ref := by
  cases converted with
  | none => exact ⟨fun _ _ => trivial⟩
  | some converted =>
      cases converted with
      | error msg =>
          refine Frames.bind (push_quiet .nil).frames fun _ _ => ?_
          refine Frames.bind (push_quiet (.string msg)).frames fun _ _ => ?_
          exact Frames.pure fun ref href => nomatch href
      | ok set =>
          refine Frames.bind (writeSet_frames hnew set) fun _ _ => ?_
          refine Frames.bind (replace_quiet index).frames fun _ _ => ?_
          refine Frames.pure fun ref href => ?_
          cases href
          exact hnew

/-- The pointer of a conversion is the argument itself, or points to a new set. -/
theorem luaToCpuSetpAt_framed (num : NumberOps Num) (index : Nat) {m : Machine Num}
    (hbase : base ≤ m.next) :
    Framed base may m.memory
      (fun ptr => ∀ ref ∈ ptr, m.stack[index - 1]? = some (.userdata ref) ∨ Writable base may ref)
      (luaToCpuSetpAt num index m) := by
  have hvalue : valueAt index m = .done m.stack[index - 1]? m := rfl
  have hstore : ∀ setp, Writable base may setp → ∀ converted,
      Frames base may (storeSet index setp converted : Lua Num (Option Nat)) fun ptr =>
        ∀ ref ∈ ptr, m.stack[index - 1]? = some (.userdata ref) ∨ Writable base may ref :=
    fun setp hnew converted => (storeSet_frames index hnew converted).mono
      fun ptr hptr ref href => Or.inr (hptr ref href)
  rw [luaToCpuSetpAt, Lua.bind_of_done hvalue]
  refine Frames.framed ?_ m hbase
  split
  next ref hself =>
    refine Frames.pure fun other hother => ?_
    cases hother
    exact Or.inl hself
  next =>
    refine Frames.bind lCpuSetAlloc_frames fun setp hnew => ?_
    refine Frames.bind (valueAt_quiet index).frames fun v _ => ?_
    split
    · exact hstore setp hnew _
    · exact hstore setp hnew _
    · exact hstore setp hnew _
    · exact raise_frames

theorem luaToCpuSetpAt_frames (num : NumberOps Num) (index : Nat) :
    Frames base may (luaToCpuSetpAt num index) fun _ => True :=
  ⟨fun _ hbase => (luaToCpuSetpAt_framed num index hbase).mono fun _ _ => trivial⟩

/-- A function that converts its first argument and may write to the set that it gets. -/
theorem Framed.of_first (num : NumberOps Num) {m : Machine Num} (hbase : base ≤ m.next)
    (hmay : ∀ ref, m.stack[0]? = some (.userdata ref) → may ref)
    {rest : Option Nat → Lua Num β} {post : β → Prop}
    (hrest : ∀ ptr, (∀ ref ∈ ptr, Writable base may ref) → Frames base may (rest ptr) post) :
    Framed base may m.memory post ((luaToCpuSetpAt num 1 >>= rest) m) := by
  refine Framed.bind (luaToCpuSetpAt_framed num 1 hbase) fun ptr hptr => hrest ptr ?_
  intro ref href
  rcases hptr ref href with hself | hwritable
  · exact Or.inl (hmay ref hself)
  · exact hwritable

/-! ## The loops -/

theorem eachCpu_frames {body : Nat → Lua Num Unit}
    (hbody : ∀ i, Frames base may (body i) fun _ => True) (cpus : List Nat) :
    Frames base may (eachCpu body cpus) fun _ => True := by
  induction cpus with
  | nil => exact Frames.pure trivial
  | cons i rest ih => exact Frames.bind (hbody i) fun _ _ => ih

theorem countLoop_frames (ptr : Option Nat) (cpus : List Nat) (n : Nat) :
    Frames base may (countLoop ptr cpus n : Lua Num Nat) fun _ => True := by
  induction cpus generalizing n with
  | nil => exact Frames.pure trivial
  | cons i rest ih => exact Frames.bind (cpuIsset_quiet i ptr).frames fun isset _ => ih _

theorem isInLoop_frames (s1 s2 : Option Nat) (cpus : List Nat) :
    Frames base may (isInLoop s1 s2 cpus : Lua Num Bool) fun _ => True := by
  induction cpus with
  | nil => exact Frames.pure trivial
  | cons i rest ih =>
      refine Frames.bind (cpuIsset_quiet i s1).frames fun left _ => ?_
      split
      · refine Frames.bind (cpuIsset_quiet i s2).frames fun right _ => ?_
        split
        · exact Frames.pure trivial
        · exact ih
      · exact ih

theorem equalsLoop_frames (s1 s2 : Option Nat) (cpus : List Nat) :
    Frames base may (equalsLoop s1 s2 cpus : Lua Num Bool) fun _ => True := by
  induction cpus with
  | nil => exact Frames.pure trivial
  | cons i rest ih =>
      refine Frames.bind (cpuIsset_quiet i s1).frames fun left _ => ?_
      refine Frames.bind (cpuIsset_quiet i s2).frames fun right _ => ?_
      split
      · exact Frames.pure trivial
      · exact ih

theorem searchLoop_frames (num : NumberOps Num) (ptr : Option Nat) (cpus : List Nat) :
    Frames base may (searchLoop num ptr cpus) fun _ => True := by
  induction cpus with
  | nil => exact Frames.pure trivial
  | cons i rest ih =>
      refine Frames.bind (cpuIsset_quiet i ptr).frames fun isset _ => ?_
      split
      · exact Frames.bind (push_quiet _).frames fun _ _ => Frames.pure trivial
      · exact ih

theorem writeLoop_frames {cpuAt : Nat → Lua Num Int} {write : Int → Option Nat → Lua Num Unit}
    {ptr : Option Nat} (hcpu : ∀ i, Frames base may (cpuAt i) fun _ => True)
    (hwrite : ∀ cpu, Frames base may (write cpu ptr) fun _ => True) (indexes : List Nat) :
    Frames base may (writeLoop cpuAt write ptr indexes) fun _ => True := by
  induction indexes with
  | nil => exact Frames.pure trivial
  | cons i rest ih =>
      exact Frames.bind (hcpu i) fun cpu _ => Frames.bind (hwrite cpu) fun _ _ => ih

theorem accumulateLoop_frames (num : NumberOps Num) {update : Nat → Nat → Lua Num Unit}
    {setp : Nat} (hupdate : ∀ s, Frames base may (update setp s) fun _ => True)
    (indexes : List Nat) :
    Frames base may (accumulateLoop num update setp indexes) fun _ => True := by
  induction indexes with
  | nil => exact Frames.bind (setTop_quiet 1).frames fun _ _ => Frames.pure trivial
  | cons i rest ih =>
      refine Frames.bind (luaToCpuSetpAt_frames num i) fun arg _ => ?_
      split
      · exact Frames.pure trivial
      · exact Frames.bind (hupdate _) fun _ _ => ih

theorem bitLoop_frames (ptr : Option Nat) (turns : Nat) (bit : Int) :
    Frames base may (bitLoop ptr turns bit : Lua Num Int) fun _ => True := by
  induction turns generalizing bit with
  | zero => exact Frames.pure trivial
  | succ turns ih =>
      have hrest : ∀ isset : Bool, Frames base may
          (if isset then pure bit else bitLoop ptr turns (bit + 1) : Lua Num Int)
          fun _ => True := by
        intro isset
        split
        · exact Frames.pure trivial
        · exact ih (bit + 1)
      rw [bitLoop]
      split
      · exact Frames.bind (cpuIsset_quiet _ ptr).frames fun isset _ => hrest isset
      · exact Frames.bind (Frames.pure trivial) fun isset (_ : True) => hrest isset

/-! ## Functions that only read -/

section Reading

variable (num : NumberOps Num)

theorem compareSets_frames {loop : Option Nat → Option Nat → List Nat → Lua Num Bool}
    (hloop : ∀ s1 s2 cpus, Frames base may (loop s1 s2 cpus) fun _ => True) :
    Frames base may (compareSets num loop) fun _ => True := by
  refine Frames.bind (luaToCpuSetpAt_frames num 1) fun s1 _ => ?_
  refine Frames.bind (luaToCpuSetpAt_frames num 2) fun s2 _ => ?_
  refine Frames.bind (hloop s1 s2 allCpus) fun rv _ => ?_
  refine Frames.bind (pop_quiet 2).frames fun _ _ => ?_
  exact Frames.bind (push_quiet _).frames fun _ _ => Frames.pure trivial

theorem lCpuSetContains_frames : Frames base may (lCpuSetContains num) fun _ => True := by
  refine Frames.bind (pushValue_quiet 1).frames fun _ _ => ?_
  refine Frames.bind (remove_quiet 1).frames fun _ _ => ?_
  exact compareSets_frames num isInLoop_frames

theorem lCpuSetCount_frames : Frames base may (lCpuSetCount num) fun _ => True := by
  refine Frames.bind (luaToCpuSetpAt_frames num 1) fun setp _ => ?_
  refine Frames.bind (countLoop_frames setp allCpus 0) fun n _ => ?_
  exact Frames.bind (push_quiet _).frames fun _ _ => Frames.pure trivial

theorem addLoop_frames {result : Nat} (hresult : Writable base may result) (s1 s2 : Nat) :
    Frames base may (addLoop result s1 s2 : Lua Num Unit) fun _ => True := by
  have hptr : ∀ ref ∈ some result, Writable base may ref := fun ref href =>
    Option.some.inj href ▸ hresult
  apply eachCpu_frames
  intro i
  have hset : Frames base may (cpuSet i (some result) : Lua Num Unit) fun _ => True :=
    cpuSet_frames hptr i
  have hclr : Frames base may (cpuClr i (some result) : Lua Num Unit) fun _ => True :=
    cpuClr_frames hptr i
  refine Frames.bind (cpuIsset_quiet i _).frames fun left _ => ?_
  split
  · exact hset
  · refine Frames.bind (cpuIsset_quiet i _).frames fun right _ => ?_
    split
    · exact hset
    · exact hclr

theorem lCpuSetAdd_frames : Frames base may (lCpuSetAdd num) fun _ => True := by
  refine Frames.bind lCpuSetAlloc_frames fun result hresult => ?_
  refine Frames.bind (luaToCpuSetpAt_frames num 1) fun s1 _ => ?_
  split
  · exact Frames.pure trivial
  · refine Frames.bind (luaToCpuSetpAt_frames num 2) fun s2 _ => ?_
    split
    · exact Frames.pure trivial
    · exact Frames.bind (addLoop_frames hresult _ _) fun _ _ => Frames.pure trivial

theorem subtractLoop_frames {result : Nat} (hresult : Writable base may result)
    (s1 : Option Nat) (s2 : Nat) :
    Frames base may (subtractLoop result s1 s2 : Lua Num Unit) fun _ => True := by
  have hptr : ∀ ref ∈ some result, Writable base may ref := fun ref href =>
    Option.some.inj href ▸ hresult
  apply eachCpu_frames
  intro i
  have hset : Frames base may (cpuSet i (some result) : Lua Num Unit) fun _ => True :=
    cpuSet_frames hptr i
  have hclr : Frames base may (cpuClr i (some result) : Lua Num Unit) fun _ => True :=
    cpuClr_frames hptr i
  refine Frames.bind (cpuIsset_quiet i _).frames fun left _ => ?_
  split
  · refine Frames.bind (cpuIsset_quiet i _).frames fun right _ => ?_
    split
    · exact hset
    · exact hclr
  · exact hclr

theorem lCpuSetSubtract_frames : Frames base may (lCpuSetSubtract num) fun _ => True := by
  refine Frames.bind lCpuSetAlloc_frames fun result hresult => ?_
  refine Frames.bind (luaToCpuSetpAt_frames num 1) fun s1 _ => ?_
  refine Frames.bind (luaToCpuSetpAt_frames num 2) fun s2 _ => ?_
  split
  · exact Frames.pure trivial
  · exact Frames.bind (subtractLoop_frames hresult s1 _) fun _ _ => Frames.pure trivial

theorem lCpuSetNewAt_frames : Frames base may (lCpuSetNewAt num) fun _ => True := by
  refine Frames.bind getTop_quiet.frames fun top _ => ?_
  split
  · refine Frames.bind lCpuSetAlloc_frames fun setp hnew => ?_
    exact Frames.bind (writeSet_frames hnew _) fun _ _ => Frames.pure trivial
  · refine Frames.bind (luaToCpuSetpAt_frames num 1) fun setp _ => ?_
    split <;> exact Frames.pure trivial
  · exact raise_frames

theorem pushText_frames (text : Option Text) :
    Frames base may (pushText text : Lua Num Unit) fun _ => True := by
  cases text with
  | some s => exact (push_quiet _).frames
  | none => exact Frames.crashed

theorem cpuSetToStringAt_frames (index : Nat) :
    Frames base may (cpuSetToStringAt num index) fun _ => True := by
  refine Frames.bind (luaToCpuSetpAt_frames num index) fun setp _ => ?_
  refine Frames.bind (readSet_quiet setp).frames fun set _ => ?_
  exact Frames.bind (pushText_frames _) fun _ _ => (replace_quiet index).frames

theorem isUserdata_frames (index : Nat) :
    Frames base may (isUserdata index : Lua Num Bool) fun _ => True := by
  refine Frames.bind (valueAt_quiet index).frames fun v _ => ?_
  split <;> exact Frames.pure trivial

theorem concat_frames : Frames base may (concat num) fun _ => True := by
  refine Frames.bind getTop_quiet.frames fun top _ => ?_
  refine Frames.bind (valueAt_quiet _).frames fun left _ => ?_
  refine Frames.bind (valueAt_quiet _).frames fun right _ => ?_
  split
  · exact Frames.bind (pop_quiet 2).frames fun _ _ => (push_quiet _).frames
  · exact raise_frames

theorem lCpuSetStrconcat_frames : Frames base may (lCpuSetStrconcat num) fun _ => True := by
  have hlast : Frames base may (do concat num; pure 1 : Lua Num Nat) fun _ => True :=
    Frames.bind (concat_frames num) fun _ _ => Frames.pure trivial
  have hsecond : ∀ isset : Bool, Frames base may
      (do
        if isset then cpuSetToStringAt num 2
        concat num
        pure 1 : Lua Num Nat) fun _ => True := by
    intro isset
    cases isset with
    | true => exact Frames.bind (cpuSetToStringAt_frames num 2) fun _ _ => hlast
    | false => exact hlast
  refine Frames.bind (isUserdata_frames 1) fun first _ => ?_
  cases first with
  | true =>
      refine Frames.bind (cpuSetToStringAt_frames num 1) fun _ _ => ?_
      exact Frames.bind (isUserdata_frames 2) fun second _ => hsecond second
  | false => exact Frames.bind (isUserdata_frames 2) fun second _ => hsecond second

theorem lCpuSetIsset_frames : Frames base may (lCpuSetIsset num) fun _ => True := by
  refine Frames.bind (luaToCpuSetpAt_frames num 1) fun setp _ => ?_
  refine Frames.bind (checkNumber_frames num 2) fun i _ => ?_
  split
  · exact raise_frames
  · refine Frames.bind (cpuIsset_quiet _ setp).frames fun isset _ => ?_
    refine Frames.bind (setTop_quiet 0).frames fun _ _ => ?_
    exact Frames.bind (push_quiet _).frames fun _ _ => Frames.pure trivial

theorem toText_frames (index : Nat) : Frames base may (toText num index) fun _ => True := by
  refine Frames.bind (valueAt_quiet index).frames fun v _ => ?_
  split
  · exact Frames.pure trivial
  · refine Frames.bind (push_quiet _).frames fun _ _ => ?_
    exact Frames.bind (replace_quiet index).frames fun _ _ => Frames.pure trivial
  · exact Frames.pure trivial

theorem lCpuSetIndex_frames : Frames base may (lCpuSetIndex num) fun _ => True := by
  refine Frames.bind (toText_frames num 2) fun key _ => ?_
  split
  · exact raise_frames
  · split
    · exact Frames.bind (push_quiet _).frames fun _ _ => Frames.pure trivial
    · refine Frames.bind (push_quiet _).frames fun _ _ => ?_
      split
      · exact Frames.bind (push_quiet _).frames fun _ _ => Frames.pure trivial
      · refine Frames.bind (push_quiet _).frames fun _ _ => ?_
        exact Frames.bind (pop_quiet 1).frames fun _ _ => lCpuSetIsset_frames num

theorem lCpuSetCopy_frames : Frames base may (lCpuSetCopy num) fun _ => True := by
  refine Frames.bind (luaToCpuSetpAt_frames num 1) fun setp _ => ?_
  refine Frames.bind lCpuSetAlloc_frames fun copy hnew => ?_
  refine Frames.bind (readSet_quiet setp).frames fun set _ => ?_
  exact Frames.bind (writeSet_frames hnew set) fun _ _ => Frames.pure trivial

theorem lGetaffinity_frames (answer : Except Text CpuSet) :
    Frames base may (lGetaffinity answer : Lua Num Nat) fun _ => True := by
  refine Frames.bind lCpuSetAlloc_frames fun setp hnew => ?_
  cases answer with
  | ok set => exact Frames.bind (writeSet_frames hnew set) fun _ _ => Frames.pure trivial
  | error msg =>
      refine Frames.bind (push_quiet _).frames fun _ _ => ?_
      exact Frames.bind (push_quiet _).frames fun _ _ => Frames.pure trivial

theorem lSetaffinity_frames (answer : Option Text) :
    Frames base may (lSetaffinity num answer) fun _ => True := by
  refine Frames.bind (luaToCpuSetpAt_frames num 1) fun _ _ => ?_
  cases answer with
  | none => exact Frames.bind (push_quiet _).frames fun _ _ => Frames.pure trivial
  | some msg =>
      refine Frames.bind (push_quiet _).frames fun _ _ => ?_
      exact Frames.bind (push_quiet _).frames fun _ _ => Frames.pure trivial

end Reading

/-! ## Functions that write their first argument -/

section Writing

variable (num : NumberOps Num) {m : Machine Num}

theorem cpuSetUnion_frames {setp : Nat} (hsetp : Writable base may setp) (s : Nat) :
    Frames base may (cpuSetUnion setp s : Lua Num Unit) fun _ => True := by
  have hptr : ∀ ref ∈ some setp, Writable base may ref := fun ref href =>
    Option.some.inj href ▸ hsetp
  apply eachCpu_frames
  intro i
  refine Frames.bind (cpuIsset_quiet i _).frames fun isset _ => ?_
  split
  · exact cpuSet_frames hptr i
  · exact Frames.pure trivial

theorem cpuSetIntersect_frames {setp : Nat} (hsetp : Writable base may setp) (s : Nat) :
    Frames base may (cpuSetIntersect setp s : Lua Num Unit) fun _ => True := by
  have hptr : ∀ ref ∈ some setp, Writable base may ref := fun ref href =>
    Option.some.inj href ▸ hsetp
  apply eachCpu_frames
  intro i
  refine Frames.bind (cpuIsset_quiet i _).frames fun left _ => ?_
  split
  · refine Frames.bind (cpuIsset_quiet i _).frames fun right _ => ?_
    split
    · exact cpuClr_frames hptr i
    · exact Frames.pure trivial
  · exact Frames.pure trivial

theorem accumulate_framed {update : Nat → Nat → Lua Num Unit}
    (hupdate : ∀ setp, Writable base may setp → ∀ s, Frames base may (update setp s) fun _ => True)
    (hbase : base ≤ m.next) (hmay : ∀ ref, m.stack[0]? = some (.userdata ref) → may ref) :
    Framed base may m.memory (fun _ => True) (accumulate num update m) := by
  have htop : getTop m = .done m.stack.length m := rfl
  rw [accumulate, Lua.bind_of_done htop]
  refine Framed.of_first num hbase hmay fun ptr hptr => ?_
  cases ptr with
  | none => exact Frames.pure trivial
  | some setp => exact accumulateLoop_frames num (hupdate setp (hptr setp rfl)) _

theorem lCpuSetSet_framed (hbase : base ≤ m.next)
    (hmay : ∀ ref, m.stack[0]? = some (.userdata ref) → may ref) :
    Framed base may m.memory (fun _ => True) (lCpuSetSet num m) := by
  refine Framed.of_first num hbase hmay fun ptr hptr => ?_
  refine Frames.bind getTop_quiet.frames fun nargs _ => ?_
  exact writeLoop_frames (checkNumber_frames num) (cpuSet_frames hptr) _

theorem lCpuSetDelete_framed (hbase : base ≤ m.next)
    (hmay : ∀ ref, m.stack[0]? = some (.userdata ref) → may ref) :
    Framed base may m.memory (fun _ => True) (lCpuSetDelete num m) := by
  refine Framed.of_first num hbase hmay fun ptr hptr => ?_
  refine Frames.bind getTop_quiet.frames fun nargs _ => ?_
  exact writeLoop_frames (toNumber_frames num) (cpuClr_frames hptr) _

theorem lCpuSetZero_framed (hbase : base ≤ m.next)
    (hmay : ∀ ref, m.stack[0]? = some (.userdata ref) → may ref) :
    Framed base may m.memory (fun _ => True) (lCpuSetZero num m) := by
  refine Framed.of_first num hbase hmay fun ptr hptr => ?_
  exact Frames.bind (update_frames hptr _) fun _ _ => Frames.pure trivial

theorem newValue_frames : Frames base may (newValue num) fun _ => True := by
  refine Frames.bind (valueAt_quiet 3).frames fun v _ => ?_
  split
  · exact Frames.pure trivial
  · exact checkNumber_frames num 3

theorem lCpuSetNewindex_framed (hbase : base ≤ m.next)
    (hmay : ∀ ref, m.stack[0]? = some (.userdata ref) → may ref) :
    Framed base may m.memory (fun _ => True) (lCpuSetNewindex num m) := by
  have hlast : Frames base may (do pop 3; pure 0 : Lua Num Nat) fun _ => True :=
    Frames.bind (pop_quiet 3).frames fun _ _ => Frames.pure trivial
  refine Framed.of_first num hbase hmay fun ptr hptr => ?_
  refine Frames.bind (checkNumber_frames num 2) fun index _ => ?_
  refine Frames.bind (newValue_frames num) fun value _ => ?_
  split
  · exact raise_frames
  · split
    · exact Frames.bind (cpuSet_frames hptr index) fun _ _ => hlast
    · split
      · exact Frames.bind (cpuClr_frames hptr index) fun _ _ => hlast
      · exact Frames.bind raise_frames fun _ (_ : True) => hlast

end Writing

/-! ## Runs -/

/-- The methods that write their first argument. -/
def Method.IsWriter : Method → Prop
  | .union | .intersect | .set | .delete => True
  | _ => False

/-- The functions that write their first argument. -/
def Function.IsWriter : Function → Prop
  | .method called => called.IsWriter
  | .zero | .newindex => True
  | _ => False

/-- An action writes a set when it gives it to a function that writes its first argument. -/
def Action.Writes (ref : Nat) : Action Num → Prop
  | .call function args => function.IsWriter ∧ args[0]? = some (.userdata ref)
  | _ => False

/-- A method leaves every set alone but its first argument. -/
theorem Method.run_framed (num : NumberOps Num) (method : Method) {m : Machine Num}
    (hbase : base ≤ m.next)
    (hmay : method.IsWriter → ∀ ref, m.stack[0]? = some (.userdata ref) → may ref) :
    Framed base may m.memory (fun _ => True) (method.run num m) := by
  cases method with
  | union => exact accumulate_framed num (fun _ => cpuSetUnion_frames) hbase (hmay trivial)
  | intersect => exact accumulate_framed num (fun _ => cpuSetIntersect_frames) hbase (hmay trivial)
  | add => exact (lCpuSetAdd_frames num).framed m hbase
  | subtract => exact (lCpuSetSubtract_frames num).framed m hbase
  | equals => exact (compareSets_frames num equalsLoop_frames).framed m hbase
  | isIn => exact (compareSets_frames num isInLoop_frames).framed m hbase
  | contains => exact (lCpuSetContains_frames num).framed m hbase
  | count => exact (lCpuSetCount_frames num).framed m hbase
  | set => exact lCpuSetSet_framed num hbase (hmay trivial)
  | delete => exact lCpuSetDelete_framed num hbase (hmay trivial)

theorem Function.run_framed (num : NumberOps Num) (function : Function) {m : Machine Num}
    (hbase : base ≤ m.next)
    (hmay : function.IsWriter → ∀ ref, m.stack[0]? = some (.userdata ref) → may ref) :
    Framed base may m.memory (fun _ => True) (function.run num m) := by
  cases function with
  | method called => exact called.run_framed num hbase hmay
  | new => exact (lCpuSetNewAt_frames num).framed m hbase
  | zero => exact lCpuSetZero_framed num hbase (hmay trivial)
  | tostring =>
      refine Framed.bind ((cpuSetToStringAt_frames num 1).framed m hbase) fun _ _ => ?_
      exact Frames.bind (setTop_quiet 1).frames fun _ _ => Frames.pure trivial
  | strconcat => exact (lCpuSetStrconcat_frames num).framed m hbase
  | isset => exact (lCpuSetIsset_frames num).framed m hbase
  | index => exact (lCpuSetIndex_frames num).framed m hbase
  | newindex => exact lCpuSetNewindex_framed num hbase (hmay trivial)
  | first =>
      refine Framed.bind ((luaToCpuSetpAt_frames num 1).framed m hbase) fun setp _ => ?_
      exact searchLoop_frames num setp allCpus
  | last =>
      refine Framed.bind ((luaToCpuSetpAt_frames num 1).framed m hbase) fun setp _ => ?_
      exact searchLoop_frames num setp allCpus.reverse
  | tohex =>
      refine Framed.bind ((luaToCpuSetpAt_frames num 1).framed m hbase) fun setp _ => ?_
      refine Frames.bind (readSet_quiet setp).frames fun set _ => ?_
      exact Frames.bind (pushText_frames _) fun _ _ => Frames.pure trivial
  | copy => exact (lCpuSetCopy_frames num).framed m hbase
  | getaffinity answer => exact (lGetaffinity_frames answer).framed m hbase
  | setaffinity answer => exact (lSetaffinity_frames num answer).framed m hbase

theorem upvalueToCpuSetp_frames (num : NumberOps Num) (v : Value Num) :
    Frames base may (upvalueToCpuSetp num v) fun _ => True := by
  constructor
  intro m hbase
  have hframed := (@luaToCpuSetpAt_frames Num base may num 1).framed ⟨[v], m.memory, m.next⟩ hbase
  rw [upvalueToCpuSetp]
  cases hconvert : luaToCpuSetpAt num 1 ⟨[v], m.memory, m.next⟩ with
  | done setp up =>
      rw [hconvert] at hframed
      exact hframed
  | raised up =>
      rw [hconvert] at hframed
      exact hframed
  | crashed => trivial
  | endless => trivial

theorem lCpuSetIterator_frames (num : NumberOps Num) (closure : Closure Num) :
    Frames base may (lCpuSetIterator num closure) fun _ => True := by
  refine Frames.bind (upvalueToCpuSetp_frames num closure.setp) fun converted _ => ?_
  refine Frames.bind (bitLoop_frames converted.1 _ _) fun bit _ => ?_
  exact Frames.bind (push_quiet _).frames fun _ _ => Frames.pure trivial

section Runs

variable {num : NumberOps Num} {s s' : Script Num}

/-- One action hands out addresses at most, and writes the sets that it may. -/
theorem step_framed {action : Action Num} {reply : Reply Num} (hbase : base ≤ s.next)
    (hmay : ∀ ref, action.Writes ref → may ref)
    (hstep : s.step num action = some (reply, s')) :
    base ≤ s'.next ∧ Untouched base may s.memory s'.memory := by
  cases action with
  | call function args =>
      have hframed := @Function.run_framed Num base may num function ⟨args, s.memory, s.next⟩
        hbase fun hwriter ref hfirst => hmay ref ⟨hwriter, hfirst⟩
      simp only [Script.step] at hstep
      split at hstep
      next n m hcall =>
        cases hstep
        rw [hcall] at hframed
        exact ⟨hframed.1, hframed.2.1⟩
      next m hcall =>
        cases hstep
        rw [hcall] at hframed
        exact hframed
      next => cases hstep
      next => cases hstep
  | iterate args =>
      simp only [Script.step, lCpuSetIterate] at hstep
      cases hlast : args.getLast? with
      | none =>
          rw [hlast] at hstep
          cases hstep
      | some v =>
          rw [hlast] at hstep
          cases hstep
          exact ⟨hbase, fun _ _ _ => rfl⟩
  | next k =>
      obtain ⟨closure, _, hcall⟩ := Option.bind_eq_some_iff.mp hstep
      have hframed := (@lCpuSetIterator_frames Num base may num closure).framed
        ⟨[], s.memory, s.next⟩ hbase
      split at hcall
      next closure' n m hresult =>
        cases hcall
        rw [hresult] at hframed
        exact ⟨hframed.1, hframed.2.1⟩
      next m hresult =>
        cases hcall
        rw [hresult] at hframed
        exact hframed
      next => cases hcall
      next => cases hcall

/-- A set keeps its CPUs through any run in which no action gives it to a function that writes its
first argument: whatever is read, compared, copied, converted, iterated or refused with an
error. -/
theorem run_keepsSet {ref : Nat} {actions : List (Action Num)} {turns : List (Turn Num)}
    (hvalid : ref < s.next) (hrun : s.run num actions = some (turns, s'))
    (hnot : ∀ action ∈ actions, ¬ action.Writes ref) : s'.memory ref = s.memory ref := by
  induction actions generalizing s turns with
  | nil =>
      cases hrun
      rfl
  | cons action rest ih =>
      obtain ⟨hfirst, hlater⟩ := List.forall_mem_cons.mp hnot
      obtain ⟨⟨reply, next⟩, hstep, hrest⟩ := Option.bind_eq_some_iff.mp hrun
      obtain ⟨⟨later, final⟩, hlast, heq⟩ := Option.map_eq_some_iff.mp hrest
      cases heq
      have hframed := @step_framed Num (ref + 1) (fun other => action.Writes other) num s next
        action reply hvalid (fun _ hwrites => hwrites) hstep
      rw [ih hframed.1 hlast hlater, hframed.2 ref (Nat.lt_succ_self ref) hfirst]

end Runs

/-- A union into a copy of the first set, and its string. -/
def unionOfCopy : List (Action Int) :=
  [.call .copy [.userdata 0], .call (.method .union) [.userdata 2, .userdata 1],
    .call .tostring [.userdata 0]]

/-- The theorem for a set that is copied before the copy is changed. -/
theorem run_keepsSet_copied :
    ∃ turns s', Script.run intNumbers unionOfCopy ⟨fun _ => CpuSet.zero.set 1, 2, []⟩ =
        some (turns, s') ∧
      s'.memory 0 = CpuSet.zero.set 1 := by
  have hruns : ∃ r ∈ Script.run intNumbers unionOfCopy ⟨fun _ => CpuSet.zero.set 1, 2, []⟩,
      r.1.length = 3 := by
    decide +kernel
  obtain ⟨⟨turns, s'⟩, hrun, _⟩ := hruns
  have hnot : ∀ action ∈ unionOfCopy, ¬ action.Writes 0 := by
    rw [unionOfCopy, List.forall_mem_cons, List.forall_mem_cons, List.forall_mem_cons]
    refine ⟨fun hwrites => hwrites.1, fun hwrites => absurd hwrites.2 (by decide), ?_, ?_⟩
    · exact fun hwrites => hwrites.1
    · exact fun action haction => absurd haction List.not_mem_nil
  exact ⟨turns, s', hrun, run_keepsSet (by decide) hrun hnot⟩

end SlurmSpank.LuaSchedutils
