import SlurmSpank.SpankLua.Callback
import SlurmSpank.SpankLua.OptionTable

/-! # `spank:register_option`

The answer of a registration is on top of the stack when two values are popped. Lua takes as many
results as the answer has from what is left, which are the arguments of the call.
-/

namespace SlurmSpank.SpankLua

open Foundation Lib

variable {Num : Type}

namespace Value

/-- `lua_istable`. -/
def isTable : Option (Value Num) → Bool
  | some (.table _) => true
  | _ => false

/-- `lua_islightuserdata`. -/
def isLightuserdata : Option (Value Num) → Bool
  | some .lightuserdata => true
  | _ => false

/-- `luaL_typename`, where the threads among the other values are called userdata too. -/
def typename : Option (Value Num) → Text
  | none => "no value".toList
  | some .nil => "nil".toList
  | some (.boolean _) => "boolean".toList
  | some (.number _) => "number".toList
  | some (.string _) => "string".toList
  | some .lightuserdata => "userdata".toList
  | some .function => "function".toList
  | some (.table _) => "table".toList
  | some .other => "userdata".toList

end Value

/-- `lua_getspank`, with whether there is a handle. What is there in its place stays on the
stack. -/
def luaGetspank (index : Int) : Api Num Bool := do
  let self := ValueStack.peek (← get) 1
  if !Value.isTable self then
    throw (.luaError ("Invalid argument expected table got ".toList ++ Value.typename self))
  getField index "spank".toList
  if !Value.isLightuserdata (ValueStack.peek (← get) (-1)) then pure false
  else do
    pop 1
    pure true

/-- The results of a C function that returns `n`, which are on top of the stack. -/
def results (n : Nat) (stack : List (Value Num)) : List (Value Num) :=
  stack.drop (stack.length - n)

/-- `l_spank_option_register`, with the script whose state it is called in, if it is one of the
list, and what `spank_option_register` is about to return: the results for the script, and the
options. -/
def lSpankOptionRegister (num : NumberOps Num) (globals : Text → Value Num) (script : Option Nat)
    (err : Option Text) (stack : List (Value Num)) (options : List ScriptOption) :
    Except Fault (List (Value Num) × List ScriptOption) :=
  match luaGetspank 1 stack with
  | .error fault _ => .error fault
  | .ok _ stack =>
      if !Value.isTable (ValueStack.peek stack 2) then
        .error (.luaError "Expected table argument to spank_option_register".toList)
      else
        match script with
        | none => .error .crash
        | some script =>
            match luaScriptOptionRegister num globals script 2 err stack options with
            | .error fault => .error fault
            | .ok (rc, stack, options) => .ok (results rc (ValueStack.pop .nil stack 2), options)

/-- A call returns `true` if SLURM takes the option, and otherwise nil and the message. -/
def Reports (err : Option Text) (outcome : Except Fault (List (Value Num) × List ScriptOption)) :
    Prop :=
  ∃ options, outcome = .ok (answer err, options)

/-- What `lua_getspank` leaves on the stack. -/
def leftover (self : List (Key × Value Num)) : List (Value Num) :=
  if Value.isLightuserdata (some (field self "spank".toList)) then []
  else [field self "spank".toList]

/-- The arguments that are taken for the answer are the answer. -/
def EndsInAnswer (stack : List (Value Num)) : Option Text → Prop
  | none => ∃ front last, stack = front ++ [.boolean true, last]
  | some msg => ∃ front, stack = front ++ [.nil, .string msg]

variable {num : NumberOps Num} {globals : Text → Value Num} {script : Option Nat}
  {err : Option Text} {stack stack' : List (Value Num)} {options options' : List ScriptOption}

theorem luaGetspank_ok_iff {b : Bool} : luaGetspank 1 stack = .ok b stack' ↔
    ∃ self, ValueStack.peek stack 1 = some (.table self) ∧
      b = Value.isLightuserdata (some (field self "spank".toList)) ∧
      stack' = stack ++ leftover self := by
  rw [luaGetspank, get_bind]
  cases hself : ValueStack.peek stack 1 with
  | none => exact iff_of_false (fun h => nomatch h) fun ⟨_, h, _⟩ => nomatch h
  | some v =>
      cases v with
      | table self =>
          rw [← hself, exists_table_iff hself, hself]
          simp only [Value.isTable, Bool.not_true, Bool.false_eq_true, if_false, bind_ok_iff,
            getField_ok_iff, get_bind, exists_table_iff hself, exists_eq_left, leftover]
          rw [ValueStack.peek_top, exists_const]
          cases Value.isLightuserdata (some (field self "spank".toList)) with
          | false => exact pure_ok_iff
          | true =>
              simp only [Bool.not_true, Bool.false_eq_true, if_false, if_true, bind_ok_iff,
                pop_ok_iff, pure_ok_iff, exists_eq_left, exists_const, List.append_nil]
      | _ => exact iff_of_false (fun h => nomatch h) fun ⟨_, h, _⟩ => nomatch h

/-- The values that a C function has put on top of the stack are its results. -/
theorem results_append (front values : List (Value Num)) :
    results values.length (front ++ values) = values := by
  rw [results, List.length_append, Nat.add_sub_cancel, List.drop_left]

/-- What the script is given are the values below the two that are popped. -/
theorem results_pop (front : List (Value Num)) (next last : Value Num) :
    results (answer err : List (Value Num)).length
        (ValueStack.pop .nil (front ++ [next, last] ++ answer err) 2) =
      if err.isSome then [next, last] else [next] := by
  cases err with
  | none =>
      have hpop : ValueStack.pop .nil (front ++ [next, last] ++ [.boolean true]) 2 =
          front ++ [next] := by
        rw [List.append_cons front next, List.append_assoc]
        exact ValueStack.pop_append .nil (front ++ [next]) [last, .boolean true]
      rw [answer, hpop]
      exact results_append front [next]
  | some msg =>
      have hpop : ValueStack.pop .nil (front ++ [next, last] ++ [.nil, .string msg]) 2 =
          front ++ [next, last] := ValueStack.pop_append .nil (front ++ [next, last]) [.nil, _]
      rw [answer, hpop]
      exact results_append front [next, last]

/-- A call returns what is on the stack in the place of the answer. -/
theorem lSpankOptionRegister_ok_iff {values : List (Value Num)} :
    lSpankOptionRegister num globals script err stack options = .ok (values, options') ↔
      ∃ self row address, ValueStack.peek stack 1 = some (.table self) ∧
        ValueStack.peek (stack ++ leftover self) 2 = some (.table row) ∧
        script = some address ∧ Describes num globals row ∧
        values = results (answer err : List (Value Num)).length
          (ValueStack.pop .nil (stack ++ leftover self ++ answer err) 2) ∧
        options' = optionOf num address row options.length :: options := by
  unfold lSpankOptionRegister
  cases hself : luaGetspank 1 stack with
  | error fault rest =>
      refine iff_of_false (fun h => nomatch h) ?_
      rintro ⟨self, _, _, htable, -⟩
      have hok : luaGetspank 1 stack = .ok _ (stack ++ leftover self) :=
        luaGetspank_ok_iff.mpr ⟨self, htable, rfl, rfl⟩
      exact nomatch hself.symm.trans hok
  | ok b rest =>
      obtain ⟨self, htable, -, rfl⟩ := luaGetspank_ok_iff.mp hself
      constructor
      · intro h
        dsimp only at h
        split at h
        next => exact nomatch h
        next hrow =>
          split at h
          next => exact nomatch h
          next address =>
            split at h
            next => exact nomatch h
            next rc stack' options'' hregister =>
              obtain ⟨row, hpeek, hdescribes, rfl, rfl, rfl⟩ :=
                luaScriptOptionRegister_ok_iff.mp hregister
              cases h
              exact ⟨self, row, address, htable, hpeek, rfl, hdescribes, rfl, rfl⟩
      · rintro ⟨self', row, address, htable', hpeek, rfl, hdescribes, rfl, rfl⟩
        -- The table at the first index is the one that `lua_getspank` has looked into.
        cases htable.symm.trans htable'
        have hregister : luaScriptOptionRegister num globals address 2 err (stack ++ leftover self)
            options = .ok ((answer err : List (Value Num)).length,
              stack ++ leftover self ++ answer err,
              optionOf num address row options.length :: options) :=
          luaScriptOptionRegister_ok_iff.mpr ⟨row, hpeek, hdescribes, rfl, rfl, rfl⟩
        dsimp only
        rw [hpeek, if_neg (by exact Bool.false_ne_true), hregister]

/-- With a value at the second index there are two values on top. -/
theorem two_of_peek {v : Value Num} (hpeek : ValueStack.peek stack 2 = some v) :
    ∃ front next last, stack = front ++ [next, last] := by
  rcases List.eq_nil_or_concat stack with rfl | ⟨below, last, rfl⟩
  · exact nomatch hpeek
  · rcases List.eq_nil_or_concat below with rfl | ⟨front, next, rfl⟩
    · exact nomatch hpeek
    · exact ⟨front, next, last, by simp⟩

theorem endsInAnswer_iff {front : List (Value Num)} {next last : Value Num} :
    EndsInAnswer (front ++ [next, last]) err ↔
      (if err.isSome then [next, last] else [next]) = answer err := by
  have hinj : ∀ {front' : List (Value Num)} {next' last' : Value Num},
      front ++ [next, last] = front' ++ [next', last'] → next = next' ∧ last = last' := by
    intro front' next' last' heq
    have hends := (List.append_inj' heq rfl).2
    simpa using hends
  cases err with
  | none =>
      constructor
      · rintro ⟨front', last', heq⟩
        rw [(hinj heq).1]
        rfl
      · intro h
        cases h
        exact ⟨front, last, rfl⟩
  | some msg =>
      constructor
      · rintro ⟨front', heq⟩
        rw [(hinj heq).1, (hinj heq).2]
        rfl
      · intro h
        cases h
        exact ⟨front, rfl⟩

/-- With a table alone, the script is given the tables that it made the call with, or the first of
them. -/
theorem lSpankOptionRegister_two {self row : List (Key × Value Num)} {address : Nat}
    (hhandle : Value.isLightuserdata (some (field self "spank".toList)) = true)
    (hdescribes : Describes num globals row) :
    lSpankOptionRegister num globals (some address) err [.table self, .table row] options =
      .ok (if err.isSome then [.table self, .table row] else [.table self],
        optionOf num address row options.length :: options) := by
  have hleft : leftover self = [] := if_pos hhandle
  refine lSpankOptionRegister_ok_iff.mpr ⟨self, row, address, rfl, ?_, rfl, hdescribes, ?_, rfl⟩
  · rw [hleft]
    rfl
  · rw [hleft, List.append_nil]
    exact (results_pop [] (.table self) (.table row)).symm

/-- A call with a table alone never reports: what the script is given begins with a table. -/
theorem not_reports_of_two (self t : Value Num) :
    ¬ Reports err (lSpankOptionRegister num globals script err [self, t] options) := by
  rintro ⟨options', hok⟩
  obtain ⟨entries, row, _, hself, hrow, -, -, hvalues, -⟩ := lSpankOptionRegister_ok_iff.mp hok
  have htable : ∀ (front : List (Value Num)) (next : List (Key × Value Num)) (last : Value Num),
      answer err ≠ if err.isSome then [.table next, last] else [.table next] := by
    intro front next last heq
    cases err with
    | _ => exact nomatch heq
  obtain rfl : self = .table entries := Option.some_inj.mp hself
  unfold leftover at hrow hvalues
  split at hvalues
  next =>
    rw [List.append_nil, ← List.nil_append [_, t], results_pop] at hvalues
    exact htable [] entries t hvalues
  next hhandle =>
    -- The value in the place of the handle is the last one, and the option's table is below it.
    rw [if_neg hhandle] at hrow
    obtain rfl : t = .table row := Option.some_inj.mp hrow
    exact htable [.table entries] row _ (hvalues.trans (results_pop [.table entries] _ _))

/-- A call reports what became of the option exactly if it is made for a script of the list with
tables from which an option can be made, and the arguments that Lua takes for the answer, which
stand behind the table, happen to be the answer. -/
theorem register_option_reports_iff (num : NumberOps Num) (globals : Text → Value Num)
    (script : Option Nat) (err : Option Text) (stack : List (Value Num))
    (options : List ScriptOption) :
    Reports err (lSpankOptionRegister num globals script err stack options) ↔
      ∃ self row address, ValueStack.peek stack 1 = some (.table self) ∧
        ValueStack.peek (stack ++ leftover self) 2 = some (.table row) ∧
        script = some address ∧ Describes num globals row ∧
        EndsInAnswer (stack ++ leftover self) err := by
  constructor
  · rintro ⟨options', hok⟩
    obtain ⟨self, row, address, hself, hrow, hscript, hdescribes, hvalues, -⟩ :=
      lSpankOptionRegister_ok_iff.mp hok
    obtain ⟨front, next, last, hstack⟩ := two_of_peek hrow
    refine ⟨self, row, address, hself, hrow, hscript, hdescribes, ?_⟩
    rw [hstack, results_pop] at hvalues
    rw [hstack, endsInAnswer_iff, hvalues]
  · rintro ⟨self, row, address, hself, hrow, hscript, hdescribes, hends⟩
    obtain ⟨front, next, last, hstack⟩ := two_of_peek hrow
    rw [hstack, endsInAnswer_iff] at hends
    refine ⟨_, lSpankOptionRegister_ok_iff.mpr
      ⟨self, row, address, hself, hrow, hscript, hdescribes, ?_, rfl⟩⟩
    rw [hstack, results_pop, hends]

/-- A table with a handle. -/
def handleTable : List (Key × Value Int) := [(.name "spank".toList, .lightuserdata)]

/-- A table with a name and a usage. -/
def plainOption : List (Key × Value Int) :=
  [(.name "name".toList, .string "first".toList), (.name "usage".toList, .string "".toList)]

theorem plainOption_describes : Describes intNumbers (fun _ => .nil) plainOption where
  name := ⟨"first".toList, rfl⟩
  arginfo := Or.inl rfl
  usage := ⟨"".toList, rfl⟩
  cb := Or.inl rfl

/-- SLURM refuses an option. The script is given the tables that it made the call with. -/
theorem refusal_seen_as_tables :
    let outcome := lSpankOptionRegister intNumbers (fun _ => .nil) (some 0)
      (some "option in use".toList) [.table handleTable, .table plainOption] []
    outcome = .ok ([.table handleTable, .table plainOption],
      [optionOf intNumbers 0 plainOption 0]) ∧
      ¬ Reports (some "option in use".toList) outcome :=
  ⟨lSpankOptionRegister_two rfl plainOption_describes, not_reports_of_two _ _⟩

end SlurmSpank.SpankLua
