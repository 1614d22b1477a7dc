import SlurmSpank.SpankLua.Script

/-! # What is read from an option table

An option is read from a table field by field, on the stack of the script. Behind it the stack is
what it was, and the option has what the table has in its fields.
-/

namespace SlurmSpank.SpankLua

open Foundation Lib

variable {Num : Type} {num : NumberOps Num} {globals : Text → Value Num} {script : Nat} {i : Int}
  {k : Text} {stack stack' : List (Value Num)}

/-- The value of a field. -/
def field (entries : List (Key × Value Num)) (k : Text) : Value Num :=
  ((entries.find? fun entry => entry.1 = .name k).map Prod.snd).getD .nil

/-- The text of a field, if it has one. -/
def fieldText (num : NumberOps Num) (entries : List (Key × Value Num)) (k : Text) : Option Text :=
  Value.toText num (some (field entries k))

/-- The number of a field. -/
def fieldInt (num : NumberOps Num) (entries : List (Key × Value Num)) (k : Text) : Int :=
  Value.toInt num (some (field entries k))

/-- The tables of which an option can be made: there are texts wherever a text is read, and the
callback is the name of a function. -/
structure Describes (num : NumberOps Num) (globals : Text → Value Num)
    (entries : List (Key × Value Num)) : Prop where
  name : ∃ s, fieldText num entries "name".toList = some s
  arginfo : field entries "arginfo".toList = .nil ∨
    ∃ s, fieldText num entries "arginfo".toList = some s
  usage : ∃ s, fieldText num entries "usage".toList = some s
  cb : field entries "cb".toList = .nil ∨ ∃ fn, fieldText num entries "cb".toList = some fn ∧
    Value.isFunction (some (globals fn)) = true

/-- The option that is made of a table, with its value for SLURM. -/
def optionOf (num : NumberOps Num) (script : Nat) (entries : List (Key × Value Num)) (val : Nat) :
    ScriptOption where
  script := script
  lVal := fieldInt num entries "val".toList
  lFunction := fieldText num entries "cb".toList
  sOpt :=
    { name := (fieldText num entries "name".toList).getD []
      arginfo := fieldText num entries "arginfo".toList
      usage := (fieldText num entries "usage".toList).getD []
      hasArg := fieldInt num entries "has_arg".toList
      val := val }

/-- What a registration pushes: `true` if SLURM takes the option, and otherwise nil and the
message. -/
def answer : Option Text → List (Value Num)
  | none => [.boolean true]
  | some msg => [.nil, .string msg]

/-! ## The operations -/

theorem bind_ok_iff {ε σ α β : Type} {first : EStateM ε σ α} {next : α → EStateM ε σ β}
    {s s' : σ} {b : β} :
    (first >>= next) s = .ok b s' ↔ ∃ a s₁, first s = .ok a s₁ ∧ next a s₁ = .ok b s' := by
  constructor
  · exact exists_of_bind_ok
  · rintro ⟨a, s₁, hfirst, hnext⟩
    change EStateM.bind first next s = _
    rw [EStateM.bind.eq_def, hfirst]
    exact hnext

theorem ok_inj {ε σ α : Type} {a b : α} {s s' : σ} :
    (EStateM.Result.ok a s : EStateM.Result ε σ α) = .ok b s' ↔ b = a ∧ s' = s := by
  rw [EStateM.Result.ok.injEq, @eq_comm _ b, @eq_comm _ s']

theorem pure_ok_iff {ε σ α : Type} {a b : α} {s s' : σ} :
    (pure a : EStateM ε σ α) s = .ok b s' ↔ b = a ∧ s' = s := ok_inj

theorem map_ok_iff {ε σ α β : Type} {f : α → β} {first : EStateM ε σ α} {s s' : σ} {b : β} :
    (f <$> first) s = .ok b s' ↔ ∃ a, first s = .ok a s' ∧ b = f a := by
  change EStateM.map f first s = _ ↔ _
  rw [EStateM.map.eq_def]
  cases first s with
  | ok a s₁ =>
      refine ok_inj.trans ⟨?_, ?_⟩
      · rintro ⟨rfl, rfl⟩
        exact ⟨a, rfl, rfl⟩
      · rintro ⟨_, hfirst, rfl⟩
        obtain ⟨rfl, rfl⟩ := ok_inj.mp hfirst
        exact ⟨rfl, rfl⟩
  | error e s₁ => exact iff_of_false (fun h => nomatch h) fun ⟨_, h, _⟩ => nomatch h

theorem get_bind {ε σ α : Type} (next : σ → EStateM ε σ α) (s : σ) :
    (get >>= next) s = next s s := rfl

theorem set_bind {ε σ α : Type} (t : σ) (next : PUnit → EStateM ε σ α) (s : σ) :
    (set t >>= next) s = next ⟨⟩ t := rfl

theorem push_bind {α : Type} (v : Value Num) (next : Unit → Api Num α)
    (stack : List (Value Num)) : (push v >>= next) stack = next () (stack ++ [v]) := rfl

/-- A field is pushed if there is a table. -/
theorem getField_ok_iff {u : Unit} :
    getField i k stack = .ok u stack' ↔
      ∃ entries, ValueStack.peek stack i = some (.table entries) ∧
        stack' = stack ++ [field entries k] := by
  rw [getField, get_bind]
  cases hpeek : ValueStack.peek stack i with
  | none => exact iff_of_false (fun h => nomatch h) fun ⟨_, h, _⟩ => nomatch h
  | some v =>
      cases v with
      | table entries =>
          refine ok_inj.trans ⟨fun h => ⟨entries, rfl, h.2⟩, ?_⟩
          rintro ⟨_, heq, h⟩
          cases heq
          exact ⟨rfl, h⟩
      | _ => exact iff_of_false (fun h => nomatch h) fun ⟨_, h, _⟩ => nomatch h

theorem strdupTop_ok_iff {v : Value Num} {s : Text} :
    strdupTop num (stack ++ [v]) = .ok s stack' ↔
      Value.toText num (some v) = some s ∧ stack' = stack ++ [.string s] := by
  rw [strdupTop, get_bind, toStringAt, ValueStack.peek_top]
  cases htext : Value.toText num (some v) with
  | none => exact iff_of_false (fun h => nomatch h) fun h => nomatch h.1
  | some t =>
      simp only [ValueStack.store_top, set_bind]
      refine pure_ok_iff.trans ⟨?_, ?_⟩
      · rintro ⟨rfl, rfl⟩
        exact ⟨rfl, rfl⟩
      · rintro ⟨heq, rfl⟩
        cases heq
        exact ⟨rfl, rfl⟩

theorem pop_ok_iff {v : Value Num} {u : Unit} :
    pop 1 (stack ++ [v]) = .ok u stack' ↔ stack' = stack := by
  have hpop : pop 1 (stack ++ [v]) = .ok () stack :=
    congrArg (EStateM.Result.ok ()) (ValueStack.pop_one .nil stack v)
  rw [hpop]
  exact ok_inj.trans (and_iff_right rfl)

/-! ## The fields -/

theorem fieldText_of_nil {entries : List (Key × Value Num)} (hnil : field entries k = .nil) :
    fieldText num entries k = none := by
  rw [fieldText, hnil]
  rfl

theorem not_isNil_of_fieldText {entries : List (Key × Value Num)} {s : Text}
    (htext : fieldText num entries k = some s) (stack : List (Value Num)) :
    ¬ Value.isNil (ValueStack.peek (stack ++ [field entries k]) (-1)) = true := by
  intro htop
  rw [fieldText_of_nil ((isNil_top stack _).mp htop)] at htext
  exact nomatch htext

theorem requiredField_ok_iff {s : Text} :
    requiredField num i k stack = .ok s stack' ↔ stack' = stack ∧
      ∃ entries, ValueStack.peek stack i = some (.table entries) ∧
        fieldText num entries k = some s := by
  simp only [requiredField, bind_ok_iff, getField_ok_iff, get_bind]
  constructor
  · rintro ⟨_, _, ⟨entries, htable, rfl⟩, h⟩
    split at h
    next => exact nomatch h
    next =>
      obtain ⟨t, _, hdup, h⟩ := bind_ok_iff.mp h
      obtain ⟨htext, rfl⟩ := strdupTop_ok_iff.mp hdup
      obtain ⟨_, _, hpop, h⟩ := bind_ok_iff.mp h
      obtain ⟨rfl, rfl⟩ := ok_inj.mp h
      exact ⟨pop_ok_iff.mp hpop, entries, htable, htext⟩
  · rintro ⟨rfl, entries, htable, htext⟩
    refine ⟨(), _, ⟨entries, htable, rfl⟩, ?_⟩
    rw [if_neg (not_isNil_of_fieldText htext stack')]
    refine bind_ok_iff.mpr ⟨s, _, strdupTop_ok_iff.mpr ⟨htext, rfl⟩, ?_⟩
    exact bind_ok_iff.mpr ⟨(), _, pop_ok_iff.mpr rfl, rfl⟩

theorem optionalText_ok_iff {text : Option Text} :
    optionalText num i k stack = .ok text stack' ↔ stack' = stack ∧
      ∃ entries, ValueStack.peek stack i = some (.table entries) ∧
        (field entries k = .nil ∨ ∃ s, fieldText num entries k = some s) ∧
          text = fieldText num entries k := by
  simp only [optionalText, bind_ok_iff, getField_ok_iff, get_bind]
  constructor
  · rintro ⟨_, _, ⟨entries, htable, rfl⟩, h⟩
    split at h
    next htop =>
      have hnil := (isNil_top stack _).mp htop
      obtain ⟨_, _, hnone, h⟩ := bind_ok_iff.mp h
      obtain ⟨rfl, rfl⟩ := pure_ok_iff.mp hnone
      obtain ⟨_, _, hpop, h⟩ := bind_ok_iff.mp h
      obtain ⟨rfl, rfl⟩ := pure_ok_iff.mp h
      refine ⟨pop_ok_iff.mp hpop, entries, htable, Or.inl hnil, ?_⟩
      exact (fieldText_of_nil hnil).symm
    next =>
      obtain ⟨_, _, hsome, h⟩ := bind_ok_iff.mp h
      obtain ⟨t, hdup, rfl⟩ := map_ok_iff.mp hsome
      obtain ⟨htext, rfl⟩ := strdupTop_ok_iff.mp hdup
      obtain ⟨_, _, hpop, h⟩ := bind_ok_iff.mp h
      obtain ⟨rfl, rfl⟩ := pure_ok_iff.mp h
      exact ⟨pop_ok_iff.mp hpop, entries, htable, Or.inr ⟨t, htext⟩, htext.symm⟩
  · rintro ⟨rfl, entries, htable, hfield, rfl⟩
    refine ⟨(), _, ⟨entries, htable, rfl⟩, ?_⟩
    rcases hfield with hnil | ⟨s, htext⟩
    · rw [if_pos ((isNil_top stack' _).mpr hnil), fieldText_of_nil hnil]
      exact bind_ok_iff.mpr ⟨none, _, rfl, bind_ok_iff.mpr ⟨(), _, pop_ok_iff.mpr rfl, rfl⟩⟩
    · rw [if_neg (not_isNil_of_fieldText htext stack'), htext]
      have hdup : strdupTop num (stack' ++ [field entries k]) = .ok s (stack' ++ [.string s]) :=
        strdupTop_ok_iff.mpr ⟨htext, rfl⟩
      refine bind_ok_iff.mpr ⟨some s, _, map_ok_iff.mpr ⟨s, hdup, rfl⟩, ?_⟩
      exact bind_ok_iff.mpr ⟨(), _, pop_ok_iff.mpr rfl, rfl⟩

theorem optionalInt_ok_iff {n : Int} :
    optionalInt num i k stack = .ok n stack' ↔ stack' = stack ∧
      ∃ entries, ValueStack.peek stack i = some (.table entries) ∧ n = fieldInt num entries k := by
  have hint : ∀ v : Option (Value Num),
      (if Value.isNil v then 0 else Value.toInt num v) = Value.toInt num v := by
    intro v
    split
    next hnil =>
      cases v with
      | none => rfl
      | some v =>
          cases v with
          | nil => rfl
          | _ => exact nomatch hnil
    next => rfl
  simp only [optionalInt, bind_ok_iff, getField_ok_iff, get_bind, hint]
  constructor
  · rintro ⟨_, _, ⟨entries, htable, rfl⟩, _, _, hpop, h⟩
    obtain ⟨rfl, rfl⟩ := pure_ok_iff.mp h
    refine ⟨pop_ok_iff.mp hpop, entries, htable, ?_⟩
    rw [ValueStack.peek_top, fieldInt]
  · rintro ⟨rfl, entries, htable, rfl⟩
    refine ⟨(), _, ⟨entries, htable, rfl⟩, (), _, pop_ok_iff.mpr rfl, pure_ok_iff.mpr ⟨?_, rfl⟩⟩
    rw [ValueStack.peek_top, fieldInt]

/-- The function of a name is looked for above the name. -/
theorem checkFunction_ok_iff {s : Text} {fn : Option Text} :
    (do
      push (globals s)
      if !Value.isFunction (ValueStack.peek (← get) (-1)) then
        throw (.luaError ("Unable to find spank option cb function ".toList ++ s))
      pop 1
      let lFunction ← pure (some s)
      pop 1
      pure lFunction : Api Num (Option Text)) (stack ++ [.string s]) = .ok fn stack' ↔
      Value.isFunction (some (globals s)) = true ∧ fn = some s ∧ stack' = stack := by
  rw [push_bind, get_bind, ValueStack.peek_top]
  cases hfunction : Value.isFunction (some (globals s)) with
  | false => exact iff_of_false (fun h => nomatch h) fun h => nomatch h.1
  | true =>
      simp only [Bool.not_true, Bool.false_eq_true, if_false, bind_ok_iff]
      constructor
      · rintro ⟨_, _, hfirst, _, _, hpure, _, _, hsecond, h⟩
        obtain rfl := pop_ok_iff.mp hfirst
        obtain ⟨rfl, rfl⟩ := pure_ok_iff.mp hpure
        obtain ⟨rfl, rfl⟩ := pure_ok_iff.mp h
        exact ⟨trivial, rfl, pop_ok_iff.mp hsecond⟩
      · rintro ⟨-, rfl, rfl⟩
        exact ⟨(), _, pop_ok_iff.mpr rfl, some s, _, rfl, (), _, pop_ok_iff.mpr rfl, rfl⟩

theorem callbackField_ok_iff {fn : Option Text} :
    callbackField num globals i stack = .ok fn stack' ↔ stack' = stack ∧
      ∃ entries, ValueStack.peek stack i = some (.table entries) ∧
        (field entries "cb".toList = .nil ∨ ∃ s, fieldText num entries "cb".toList = some s ∧
          Value.isFunction (some (globals s)) = true) ∧
        fn = fieldText num entries "cb".toList := by
  simp only [callbackField, bind_ok_iff, getField_ok_iff, get_bind]
  constructor
  · rintro ⟨_, _, ⟨entries, htable, rfl⟩, h⟩
    split at h
    next htop =>
      have hnil := (isNil_top stack _).mp htop
      obtain ⟨_, _, hnone, h⟩ := bind_ok_iff.mp h
      obtain ⟨rfl, rfl⟩ := pure_ok_iff.mp hnone
      obtain ⟨_, _, hpop, h⟩ := bind_ok_iff.mp h
      obtain ⟨rfl, rfl⟩ := pure_ok_iff.mp h
      refine ⟨pop_ok_iff.mp hpop, entries, htable, Or.inl hnil, ?_⟩
      exact (fieldText_of_nil hnil).symm
    next =>
      obtain ⟨s, _, hdup, h⟩ := bind_ok_iff.mp h
      obtain ⟨htext, rfl⟩ := strdupTop_ok_iff.mp hdup
      obtain ⟨hfunction, rfl, hstack⟩ := checkFunction_ok_iff.mp h
      exact ⟨hstack, entries, htable, Or.inr ⟨s, htext, hfunction⟩, htext.symm⟩
  · rintro ⟨rfl, entries, htable, hfield, rfl⟩
    refine ⟨(), _, ⟨entries, htable, rfl⟩, ?_⟩
    rcases hfield with hnil | ⟨s, htext, hfunction⟩
    · rw [if_pos ((isNil_top stack' _).mpr hnil), fieldText_of_nil hnil]
      exact bind_ok_iff.mpr ⟨none, _, rfl, bind_ok_iff.mpr ⟨(), _, pop_ok_iff.mpr rfl, rfl⟩⟩
    · rw [if_neg (not_isNil_of_fieldText htext stack'), htext]
      refine bind_ok_iff.mpr ⟨s, _, strdupTop_ok_iff.mpr ⟨htext, rfl⟩, ?_⟩
      exact checkFunction_ok_iff.mpr ⟨hfunction, rfl, rfl⟩

theorem exists_table_iff {entries : List (Key × Value Num)}
    {holds : List (Key × Value Num) → Prop}
    (htable : ValueStack.peek stack i = some (.table entries)) :
    (∃ entries, ValueStack.peek stack i = some (.table entries) ∧ holds entries) ↔
      holds entries := by
  constructor
  · rintro ⟨_, hother, hholds⟩
    cases htable.symm.trans hother
    exact hholds
  · exact fun hholds => ⟨entries, htable, hholds⟩

/-- An option is made exactly of the tables that describe one, and the stack is what it was. -/
theorem luaScriptOptionCreate_ok_iff {opt : ScriptOption} :
    luaScriptOptionCreate num globals script i stack = .ok opt stack' ↔ stack' = stack ∧
      ∃ entries, ValueStack.peek stack i = some (.table entries) ∧
        Describes num globals entries ∧ opt = optionOf num script entries 0 := by
  simp only [luaScriptOptionCreate, bind_ok_iff, requiredField_ok_iff, optionalText_ok_iff,
    optionalInt_ok_iff, callbackField_ok_iff]
  constructor
  · rintro ⟨name, _, ⟨rfl, entries, htable, hname⟩, arginfo, _, ⟨rfl, harginfo⟩, usage, _,
      ⟨rfl, husage⟩, hasArg, _, ⟨rfl, hhasArg⟩, lVal, _, ⟨rfl, hlVal⟩, fn, _, ⟨rfl, hfn⟩, h⟩
    -- The other fields are read from the same table.
    simp only [exists_table_iff htable] at harginfo husage hhasArg hlVal hfn
    obtain ⟨rfl, rfl⟩ := pure_ok_iff.mp h
    refine ⟨rfl, entries, htable, ⟨⟨name, hname⟩, harginfo.1, ⟨usage, husage⟩, hfn.1⟩, ?_⟩
    rw [optionOf, hname, husage, harginfo.2, hhasArg, hlVal, hfn.2]
    rfl
  · rintro ⟨rfl, entries, htable, ⟨⟨name, hname⟩, harginfo, ⟨usage, husage⟩, hcb⟩, rfl⟩
    refine ⟨name, _, ⟨rfl, entries, htable, hname⟩, _, _, ⟨rfl, entries, htable, harginfo, rfl⟩,
      usage, _, ⟨rfl, entries, htable, husage⟩, _, _, ⟨rfl, entries, htable, rfl⟩, _, _,
      ⟨rfl, entries, htable, rfl⟩, _, _, ⟨rfl, entries, htable, hcb, rfl⟩,
      pure_ok_iff.mpr ⟨?_, rfl⟩⟩
    rw [optionOf, hname, husage]
    rfl

/-- An option that is registered is put in front of the others, and its value is their number. -/
theorem luaScriptOptionRegister_ok_iff {err : Option Text} {n : Nat}
    {options options' : List ScriptOption} :
    luaScriptOptionRegister num globals script i err stack options = .ok (n, stack', options') ↔
      ∃ entries, ValueStack.peek stack i = some (.table entries) ∧
        Describes num globals entries ∧ n = (answer err : List (Value Num)).length ∧
        stack' = stack ++ answer err ∧
        options' = optionOf num script entries options.length :: options := by
  unfold luaScriptOptionRegister
  cases hcreate : luaScriptOptionCreate num globals script i stack with
  | error fault rest =>
      refine iff_of_false (fun h => nomatch h) ?_
      rintro ⟨entries, htable, hdescribes, -⟩
      have hok : luaScriptOptionCreate num globals script i stack =
          .ok (optionOf num script entries 0) stack :=
        luaScriptOptionCreate_ok_iff.mpr ⟨rfl, entries, htable, hdescribes, rfl⟩
      exact nomatch hcreate.symm.trans hok
  | ok opt rest =>
      obtain ⟨rfl, entries, htable, hdescribes, rfl⟩ := luaScriptOptionCreate_ok_iff.mp hcreate
      rw [exists_table_iff htable, and_iff_right hdescribes]
      cases err with
      | _ =>
          constructor
          · intro h
            cases h
            exact ⟨rfl, rfl, rfl⟩
          · rintro ⟨rfl, rfl, rfl⟩
            rfl

end SlurmSpank.SpankLua
