import SlurmSpank.UseEnv.ParserSafety

/-! # Test expressions

The expressions that one would write between the parentheses of an `if`, with any expression
inside parentheses. The grammar has a single test there, so the parser takes exactly the
expressions whose parentheses hold no `&&` and no `||`.
-/

namespace SlurmSpank.UseEnv

/-! ## Expressions -/

/-- `&&` and `||`. -/
inductive Connective where
  | and
  | or
  deriving DecidableEq, Repr

namespace Connective

def token : Connective → Token
  | .and => .and
  | .or => .or

def apply : Connective → Bool → Bool → Bool
  | .and, u, v => u && v
  | .or, u, v => u || v

/-- The list of tests before the operand on the right. -/
def joined : Connective → Bool → Joined
  | .and => .and
  | .or => .or

end Connective

mutual

/-- An expression. The operators have one precedence and associate to the left. -/
inductive TestExpr where
  | one (test : SingleTest)
  | join (left : TestExpr) (op : Connective) (right : SingleTest)

/-- The single test that an operator applies to. -/
inductive SingleTest where
  | item (x : Item)
  | cmp (x : Item) (cmp : Cmp) (y : Item)
  | defined (x : Item)
  | match (x y : Item)
  | paren (inner : TestExpr)
  | not (test : SingleTest)

end

mutual

/-- The tokens of an expression. -/
def TestExpr.tokens : TestExpr → List Token
  | .one test => test.tokens
  | .join left op right => left.tokens ++ op.token :: right.tokens

def SingleTest.tokens : SingleTest → List Token
  | .item x => [.item x]
  | .cmp x cmp y => [.item x, .cmp cmp, .item y]
  | .defined x => [.defined, .item x]
  | .match x y => [.item x, .match, .item y]
  | .paren inner => .lparen :: (inner.tokens ++ [.rparen])
  | .not test => .bang :: test.tokens

end

/-- An item is true unless it is 0 or empty. -/
def Item.truth (i : Item) : Bool :=
  match i.typeInt with
  | some num => num ≠ 0
  | none => i.str ≠ []

/-- The symbol that an item names, if it names any, is defined. -/
def Item.isDefined (i : Item) : Option Bool :=
  match i.val with
  | .int _ | .str => none
  | .sym s => some s.isSome

mutual

/-- The boolean value of an expression. It has none if it orders items that are not numbers or
asks whether a literal is defined. -/
def TestExpr.value (setting : Setting) : TestExpr → Option Bool
  | .one test => test.value setting
  | .join left op right => do
      let u ← left.value setting
      let v ← right.value setting
      some (op.apply u v)

def SingleTest.value (setting : Setting) : SingleTest → Option Bool
  | .item x => some x.truth
  | .cmp x cmp y => itemCmp setting cmp x y
  | .defined x => x.isDefined
  | .match x y => some (setting.fnmatch y.str x.str)
  | .paren inner => inner.value setting
  | .not test => (test.value setting).map not

end

/-! ## What the parser takes -/

mutual

/-- No parentheses hold `&&` or `||`. -/
def TestExpr.plain : TestExpr → Bool
  | .one test => test.plain
  | .join left _ right => left.plain && right.plain

def SingleTest.plain : SingleTest → Bool
  | .item _ | .cmp _ _ _ | .defined _ | .match _ _ => true
  | .paren (.one test) => test.plain
  | .paren (.join _ _ _) => false
  | .not test => test.plain

end

/-- Only numbers are ordered. -/
def Cmp.takes (cmp : Cmp) (x y : Item) : Bool :=
  cmp = .eq || cmp = .ne || x.typeInt.isSome && y.typeInt.isSome

mutual

/-- Only symbols are asked whether they are defined, and where the condition holds, only
numbers are ordered. -/
def TestExpr.typed (executing : Bool) : TestExpr → Bool
  | .one test => test.typed executing
  | .join left _ right => left.typed executing && right.typed executing

def SingleTest.typed (executing : Bool) : SingleTest → Bool
  | .item _ | .match _ _ => true
  | .cmp x cmp y => !executing || cmp.takes x y
  | .defined x => x.isDefined.isSome
  | .paren inner => inner.typed executing
  | .not test => test.typed executing

end

theorem itemCmp_isSome (setting : Setting) (cmp : Cmp) (x y : Item) :
    (itemCmp setting cmp x y).isSome = cmp.takes x y := by
  cases cmp <;> cases hx : x.typeInt <;> cases hy : y.typeInt <;> simp [itemCmp, Cmp.takes, hx, hy]

/-! ## The functions of a test under a condition -/

section Condition

variable {setting : Setting} {conds : CondStack} {executing : Bool}

theorem testItem_eq (hcondition : condition conds = some executing) (x : Item) :
    testItem conds x = some (executing && x.truth) := by
  rw [testItem, hcondition]
  rfl

theorem doFnmatch_eq (hcondition : condition conds = some executing) (x y : Item) :
    doFnmatch setting conds x y = some (executing && setting.fnmatch x.str y.str) := by
  rw [doFnmatch, hcondition]
  rfl

theorem cmpItems_eq (hcondition : condition conds = some executing) (cmp : Cmp) (x y : Item) :
    cmpItems setting conds cmp x y =
      some (if executing then itemCmp setting cmp x y else some false) := by
  rw [cmpItems, hcondition]
  rfl

theorem itemDefined_eq (hcondition : condition conds = some executing) (x : Item) :
    itemDefined conds x = some (x.isDefined.map (executing && ·)) := by
  unfold itemDefined Item.isDefined
  cases x.val with
  | int num => rfl
  | str => rfl
  | sym s =>
      rw [hcondition]
      rfl

end Condition

/-! ## The parser on an expression -/

/-- The tokens that can stand behind a single test. -/
def Token.endsTest : Token → Bool
  | .and | .or | .rparen => true
  | _ => false

/-- The tokens of expressions. -/
def Token.inTests : Token → Bool
  | .item _ | .cmp _ | .match | .defined | .and | .or | .bang | .lparen | .rparen => true
  | _ => false

theorem Token.inTests_of_endsTest {t : Token} (hends : t.endsTest = true) : t.inTests = true := by
  cases t <;> first | rfl | exact absurd hends Bool.false_ne_true

theorem Connective.endsTest (op : Connective) : op.token.endsTest = true := by
  cases op <;> rfl

mutual

theorem TestExpr.tokens_inTests : ∀ e : TestExpr, ∀ t ∈ e.tokens, t.inTests = true
  | .one test => test.tokens_inTests
  | .join left op right => by
      intro t ht
      rw [TestExpr.tokens, List.mem_append, List.mem_cons] at ht
      rcases ht with hleft | rfl | hright
      · exact left.tokens_inTests t hleft
      · exact Token.inTests_of_endsTest op.endsTest
      · exact right.tokens_inTests t hright

theorem SingleTest.tokens_inTests : ∀ test : SingleTest, ∀ t ∈ test.tokens, t.inTests = true
  | .item _ | .cmp _ _ _ | .defined _ | .match _ _ => by simp [SingleTest.tokens, Token.inTests]
  | .paren inner => by
      intro t ht
      rw [SingleTest.tokens, List.mem_cons, List.mem_append, List.mem_singleton] at ht
      rcases ht with rfl | hinner | rfl
      · rfl
      · exact inner.tokens_inTests t hinner
      · rfl
  | .not test => by
      intro t ht
      rw [SingleTest.tokens, List.mem_cons] at ht
      rcases ht with rfl | htest
      · rfl
      · exact test.tokens_inTests t htest

end

namespace Parser

variable {setting : Setting} {conds : CondStack} {blocks : List Block} {head : Head}
  {executing : Bool} {joined : Joined} {marks : List Mark} {value : Bool} {next : Token}

theorem closeTest_bang (hcondition : condition conds = some executing) :
    closeTest conds joined (.bang :: marks) value =
      closeTest conds joined marks (if executing then !value else false) := by
  rw [closeTest, hcondition]
  rfl

/-- An item is reduced to a test before a token that ends the test. -/
theorem step_item {x : Item} {tests : TestsPos} (hvalue : testItem conds x = some value)
    (hclose : closeTest conds joined marks value = some tests) (hends : next.endsTest = true) :
    step setting ⟨conds, blocks, .tests head ⟨joined, marks, .item x⟩⟩ next =
      step setting ⟨conds, blocks, .tests head tests⟩ next := by
  obtain ⟨hfits, hitem⟩ := closeTest_fits hclose next
  have hreduce : reduce setting ⟨conds, blocks, .tests head tests⟩ next =
      some ⟨conds, blocks, .tests head tests⟩ := by
    obtain ⟨joined', marks', pos⟩ := tests
    cases pos with
    | item y => exact absurd rfl (hitem y)
    | _ => rfl
  have hitems : reduce setting ⟨conds, blocks, .tests head ⟨joined, marks, .item x⟩⟩ next =
      some ⟨conds, blocks, .tests head tests⟩ := by
    cases next <;> first | exact absurd hends Bool.false_ne_true | simp [reduce, hvalue, hclose]
  have hsame : fits ⟨conds, blocks, .tests head ⟨joined, marks, .item x⟩⟩ next =
      fits ⟨conds, blocks, .tests head tests⟩ next := by
    change TestsPos.fits ⟨joined, marks, .item x⟩ next = tests.fits next
    rw [hfits]
    cases next <;> first | rfl | exact absurd hends Bool.false_ne_true
  rw [step, step, hreduce, hitems, hsame]

/-- The parser reads the tokens of a single test and has the value of the test. -/
def Passes (setting : Setting) (conds : CondStack) (blocks : List Block) (head : Head)
    (tokens : List Token) (value : Bool) : Prop :=
  ∀ joined marks next rest tests, next.endsTest = true →
    closeTest conds joined marks value = some tests →
    run setting ⟨conds, blocks, .tests head ⟨joined, marks, .expect⟩⟩ (tokens ++ next :: rest) =
      run setting ⟨conds, blocks, .tests head tests⟩ (next :: rest)

/-- The finished test behind a step that ends it. -/
theorem run_endTest {p : Parser} {t : Token} {tokens : List Token} {tests : TestsPos}
    (hstep : p.step setting t =
      endTest ⟨conds, blocks, p.stmt⟩ head joined marks (some value))
    (hclose : closeTest conds joined marks value = some tests) :
    run setting p (t :: tokens) = run setting ⟨conds, blocks, .tests head tests⟩ tokens := by
  rw [run, hstep, endTest, hclose]
  rfl

section Single

variable (hcondition : condition conds = some executing)
include hcondition

theorem item_passes (x : Item) :
    Passes setting conds blocks head [.item x] (executing && x.truth) := by
  intro joined marks next rest tests hends hclose
  have hstep := @step_item setting conds blocks head joined marks _ next x tests
    (testItem_eq hcondition x) hclose hends
  change run setting ⟨conds, blocks, .tests head ⟨joined, marks, .item x⟩⟩ (next :: rest) = _
  rw [run, run, hstep]

theorem cmp_passes {x y : Item} {cmp : Cmp}
    (hvalue : (if executing then itemCmp setting cmp x y else some false) = some value) :
    Passes setting conds blocks head [.item x, .cmp cmp, .item y] value := by
  intro joined marks next rest tests hends hclose
  change run setting ⟨conds, blocks, .tests head ⟨joined, marks, .cmp x cmp⟩⟩
    (.item y :: next :: rest) = _
  refine run_endTest ?_ hclose
  change ((cmpItems setting conds cmp x y).bind fun value => endTest _ head joined marks value) = _
  rw [cmpItems_eq hcondition, hvalue]
  rfl

theorem match_passes (x y : Item) :
    Passes setting conds blocks head [.item x, .match, .item y]
      (executing && setting.fnmatch y.str x.str) := by
  intro joined marks next rest tests hends hclose
  change run setting ⟨conds, blocks, .tests head ⟨joined, marks, .match x⟩⟩
    (.item y :: next :: rest) = _
  refine run_endTest ?_ hclose
  change ((doFnmatch setting conds y x).bind fun value =>
    endTest _ head joined marks (some value)) = _
  rw [doFnmatch_eq hcondition]
  rfl

theorem defined_passes {x : Item} (hvalue : x.isDefined = some value) :
    Passes setting conds blocks head [.defined, .item x] (executing && value) := by
  intro joined marks next rest tests hends hclose
  change run setting ⟨conds, blocks, .tests head ⟨joined, marks, .defined⟩⟩
    (.item x :: next :: rest) = _
  refine run_endTest ?_ hclose
  change ((itemDefined conds x).bind fun value => endTest _ head joined marks value) = _
  rw [itemDefined_eq hcondition, hvalue]
  rfl

theorem Passes.not {tokens : List Token} (hpasses : Passes setting conds blocks head tokens value) :
    Passes setting conds blocks head (.bang :: tokens) (if executing then !value else false) := by
  intro joined marks next rest tests hends hclose
  change run setting ⟨conds, blocks, .tests head ⟨joined, .bang :: marks, .expect⟩⟩
    (tokens ++ next :: rest) = _
  apply hpasses joined (.bang :: marks) next rest tests hends
  rw [closeTest_bang hcondition]
  exact hclose

omit hcondition in
theorem Passes.paren {tokens : List Token}
    (hpasses : Passes setting conds blocks head tokens value) :
    Passes setting conds blocks head (.lparen :: (tokens ++ [.rparen])) value := by
  intro joined marks next rest tests hends hclose
  have hinner := hpasses joined (.paren :: marks) .rparen (next :: rest)
    ⟨joined, .paren :: marks, .inner value⟩ rfl rfl
  rw [List.cons_append, List.append_assoc]
  change run setting ⟨conds, blocks, .tests head ⟨joined, .paren :: marks, .expect⟩⟩
    (tokens ++ .rparen :: next :: rest) = _
  rw [hinner]
  exact run_endTest rfl hclose

/-- The parser reads a single test whose parentheses hold single tests. -/
theorem single_passes : ∀ test : SingleTest, test.plain = true → test.typed executing = true →
    ∃ value, (executing = true → test.value setting = some value) ∧
      Passes setting conds blocks head test.tokens value
  | .item x, _, _ => ⟨executing && x.truth, by rintro rfl; rfl, item_passes hcondition x⟩
  | .cmp x cmp y, _, htyped => by
      cases executing with
      | false => exact ⟨false, by simp, cmp_passes hcondition rfl⟩
      | true =>
          have hsome : (itemCmp setting cmp x y).isSome = true := by
            rw [itemCmp_isSome]
            exact htyped
          obtain ⟨value, hvalue⟩ := Option.isSome_iff_exists.mp hsome
          exact ⟨value, fun _ => hvalue, cmp_passes hcondition hvalue⟩
  | .match x y, _, _ =>
      ⟨executing && setting.fnmatch y.str x.str, by rintro rfl; rfl, match_passes hcondition x y⟩
  | .defined x, _, htyped => by
      obtain ⟨value, hvalue⟩ := Option.isSome_iff_exists.mp htyped
      refine ⟨executing && value, ?_, defined_passes hcondition hvalue⟩
      rintro rfl
      exact hvalue
  | .paren (.one test), hplain, htyped => by
      obtain ⟨value, hvalue, hpasses⟩ := single_passes test hplain htyped
      exact ⟨value, hvalue, hpasses.paren⟩
  | .paren (.join _ _ _), hplain, _ => absurd hplain Bool.false_ne_true
  | .not test, hplain, htyped => by
      obtain ⟨value, hvalue, hpasses⟩ := single_passes test hplain htyped
      refine ⟨if executing then !value else false, ?_, hpasses.not hcondition⟩
      rintro rfl
      rw [SingleTest.value, hvalue rfl]
      rfl

end Single

/-! ## The parser on an expression that it refuses -/

/-- The parser aborts, or it has met a syntax error and skips what is left of the statement. -/
def Refused : Option Outcome → Prop
  | some (.abort _) => True
  | some (.next p _) => p.stmt = .recovering
  | _ => False

theorem recovering_refused {p : Parser} (hstmt : p.stmt = .recovering) {tokens : List Token}
    (hin : ∀ t ∈ tokens, t.inTests = true) : Refused (p.run setting tokens) := by
  induction tokens generalizing p with
  | nil => exact hstmt
  | cons t rest ih =>
      obtain ⟨conds, blocks, stmt⟩ := p
      obtain rfl : stmt = .recovering := hstmt
      have hrest :=
        @ih ⟨conds, blocks, .recovering⟩ rfl fun t ht => hin t (List.mem_cons_of_mem _ ht)
      have ht := hin t List.mem_cons_self
      cases t <;> first | exact hrest | exact absurd ht Bool.false_ne_true

/-- Behind a test in parentheses comes no operator. -/
theorem inner_refused (op : Connective) {rest : List Token} (hin : ∀ t ∈ rest, t.inTests = true) :
    Refused (run setting ⟨conds, blocks, .tests head ⟨joined, marks, .inner value⟩⟩
      (op.token :: rest)) := by
  have hrest : Refused (run setting ⟨conds, blocks, .recovering⟩ rest) :=
    recovering_refused rfl hin
  cases op <;> exact hrest

section Refusal

variable (hcondition : condition conds = some executing)
include hcondition

theorem cmp_refused {x y : Item} {cmp : Cmp} {rest : List Token}
    (htyped : (SingleTest.cmp x cmp y).typed executing = false) :
    Refused (run setting ⟨conds, blocks, .tests head ⟨joined, marks, .expect⟩⟩
      (.item x :: .cmp cmp :: .item y :: rest)) := by
  rw [SingleTest.typed, Bool.or_eq_false_iff, Bool.not_eq_false'] at htyped
  obtain ⟨rfl, htakes⟩ := htyped
  have hnone : itemCmp setting cmp x y = none := by
    rw [← Option.not_isSome_iff_eq_none, itemCmp_isSome, htakes]
    exact Bool.false_ne_true
  have hstep : step setting ⟨conds, blocks, .tests head ⟨joined, marks, .cmp x cmp⟩⟩ (.item y) =
      some (.abort conds) := by
    change
      ((cmpItems setting conds cmp x y).bind fun value => endTest _ head joined marks value) = _
    rw [cmpItems_eq hcondition, hnone]
    rfl
  change Refused (run setting ⟨conds, blocks, .tests head ⟨joined, marks, .cmp x cmp⟩⟩
    (.item y :: rest))
  rw [run, hstep]
  trivial

theorem defined_refused {x : Item} {rest : List Token}
    (htyped : (SingleTest.defined x).typed executing = false) :
    Refused (run setting ⟨conds, blocks, .tests head ⟨joined, marks, .expect⟩⟩
      (.defined :: .item x :: rest)) := by
  have hnone : x.isDefined = none := Option.not_isSome_iff_eq_none.mp (Bool.eq_false_iff.mp htyped)
  have hstep : step setting ⟨conds, blocks, .tests head ⟨joined, marks, .defined⟩⟩ (.item x) =
      some (.abort conds) := by
    change ((itemDefined conds x).bind fun value => endTest _ head joined marks value) = _
    rw [itemDefined_eq hcondition, hnone]
    rfl
  change Refused (run setting ⟨conds, blocks, .tests head ⟨joined, marks, .defined⟩⟩
    (.item x :: rest))
  rw [run, hstep]
  trivial

mutual

/-- Every other single test is refused wherever it stands. -/
theorem single_refused (joined : Joined) : ∀ (test : SingleTest) (marks : List Mark)
    (rest : List Token), (∀ t ∈ rest, t.inTests = true) →
    (test.plain = true → test.typed executing = false) →
    Refused (run setting ⟨conds, blocks, .tests head ⟨joined, marks, .expect⟩⟩
      (test.tokens ++ rest))
  | .item _, _, _, _, hbad | .match _ _, _, _, _, hbad => absurd (hbad rfl).symm Bool.false_ne_true
  | .cmp _ _ _, _, _, _, hbad => cmp_refused hcondition (hbad rfl)
  | .defined _, _, _, _, hbad => defined_refused hcondition (hbad rfl)
  | .paren (.one test), marks, rest, hin, hbad => by
      have hrest : ∀ t ∈ Token.rparen :: rest, t.inTests = true :=
        List.forall_mem_cons.mpr ⟨rfl, hin⟩
      have hrefused := single_refused joined test (.paren :: marks) (.rparen :: rest) hrest hbad
      rw [SingleTest.tokens, TestExpr.tokens, List.cons_append, List.append_assoc]
      exact hrefused
  | .paren (.join left op right), marks, rest, hin, _ => by
      have hrest : ∀ t ∈ right.tokens ++ .rparen :: rest, t.inTests = true :=
        List.forall_mem_append.mpr
          ⟨right.tokens_inTests, List.forall_mem_cons.mpr ⟨rfl, hin⟩⟩
      have hrefused := parenthesized_refused joined left op marks _ hrest
      rw [SingleTest.tokens, TestExpr.tokens, List.cons_append, List.append_assoc,
        List.append_assoc]
      exact hrefused
  | .not test, marks, rest, hin, hbad => single_refused joined test (.bang :: marks) rest hin hbad

/-- An expression in parentheses is refused at its first operator, if not before. -/
theorem parenthesized_refused (joined : Joined) : ∀ (left : TestExpr) (op : Connective)
    (marks : List Mark) (rest : List Token), (∀ t ∈ rest, t.inTests = true) →
    Refused (run setting ⟨conds, blocks, .tests head ⟨joined, .paren :: marks, .expect⟩⟩
      (left.tokens ++ op.token :: rest))
  | .one test, op, marks, rest, hin => by
      rw [TestExpr.tokens]
      by_cases hgood : test.plain = true ∧ test.typed executing = true
      · obtain ⟨value, -, hpasses⟩ := single_passes hcondition test hgood.1 hgood.2
        rw [hpasses joined (.paren :: marks) op.token rest ⟨joined, .paren :: marks, .inner value⟩
          op.endsTest rfl]
        exact inner_refused op hin
      · refine single_refused joined test (.paren :: marks) (op.token :: rest) ?_ ?_
        · exact List.forall_mem_cons.mpr ⟨Token.inTests_of_endsTest op.endsTest, hin⟩
        · exact fun hplain => Bool.eq_false_iff.mpr fun htyped => hgood ⟨hplain, htyped⟩
  | .join left first right, op, marks, rest, hin => by
      have hrest : ∀ t ∈ right.tokens ++ op.token :: rest, t.inTests = true :=
        List.forall_mem_append.mpr ⟨right.tokens_inTests,
          List.forall_mem_cons.mpr ⟨Token.inTests_of_endsTest op.endsTest, hin⟩⟩
      have hrefused := parenthesized_refused joined left first marks _ hrest
      rw [TestExpr.tokens, List.append_assoc]
      exact hrefused

end

end Refusal

/-! ## Lists of tests -/

section Expression

variable (hcondition : condition conds = some executing)
include hcondition

/-- The parser reads a plain expression and has its value. -/
theorem expr_passes : ∀ e : TestExpr, e.plain = true → e.typed executing = true →
    ∃ joined value, (executing = true → e.value setting = some value) ∧
      ∀ next rest, next.endsTest = true →
        run setting ⟨conds, blocks, .tests head ⟨.first, [], .expect⟩⟩ (e.tokens ++ next :: rest) =
          run setting ⟨conds, blocks, .tests head ⟨joined, [], .done value⟩⟩ (next :: rest)
  | .one test, hplain, htyped => by
      obtain ⟨value, hvalue, hpasses⟩ := single_passes hcondition test hplain htyped
      exact ⟨.first, value, hvalue, fun next rest hends => hpasses .first [] next rest _ hends rfl⟩
  | .join left op right, hplain, htyped => by
      rw [TestExpr.plain, Bool.and_eq_true] at hplain
      rw [TestExpr.typed, Bool.and_eq_true] at htyped
      obtain ⟨joined, u, hu, hleft⟩ := expr_passes left hplain.1 htyped.1
      obtain ⟨v, hv, hright⟩ :=
        @single_passes setting conds blocks head executing hcondition right hplain.2 htyped.2
      refine ⟨op.joined u, op.apply u v, fun hexecuting => ?_, fun next rest hends => ?_⟩
      · rw [TestExpr.value, hu hexecuting, hv hexecuting]
        rfl
      · rw [TestExpr.tokens, List.append_assoc, List.cons_append, hleft _ _ op.endsTest]
        have hoperand := hright (op.joined u) [] next rest
          ⟨op.joined u, [], .done (op.apply u v)⟩ hends (by cases op <;> rfl)
        cases op <;> exact hoperand

theorem expr_refused : ∀ (e : TestExpr) (rest : List Token), (∀ t ∈ rest, t.inTests = true) →
    (e.plain = true → e.typed executing = false) →
    Refused (run setting ⟨conds, blocks, .tests head ⟨.first, [], .expect⟩⟩ (e.tokens ++ rest))
  | .one test, rest, hin, hbad => single_refused hcondition .first test [] rest hin hbad
  | .join left op right, rest, hin, hbad => by
      have hright : ∀ t ∈ right.tokens ++ rest, t.inTests = true :=
        List.forall_mem_append.mpr ⟨right.tokens_inTests, hin⟩
      rw [TestExpr.tokens, List.append_assoc, List.cons_append]
      by_cases hleft : left.plain = true ∧ left.typed executing = true
      · obtain ⟨joined, u, -, hpasses⟩ :=
          @expr_passes setting conds blocks head executing hcondition left hleft.1 hleft.2
        rw [hpasses _ _ op.endsTest]
        have hoperand := @single_refused setting conds blocks head executing hcondition
          (op.joined u) right [] rest hin fun hplain => by
            have htyped := hbad (by rw [TestExpr.plain, hleft.1, hplain]; rfl)
            rw [TestExpr.typed, hleft.2] at htyped
            exact htyped
        cases op <;> exact hoperand
      · refine expr_refused left (op.token :: (right.tokens ++ rest)) ?_ ?_
        · exact List.forall_mem_cons.mpr ⟨Token.inTests_of_endsTest op.endsTest, hright⟩
        · exact fun hplain => Bool.eq_false_iff.mpr fun htyped => hleft ⟨hplain, htyped⟩

end Expression

/-! ## The tests of an `if` -/

/-- The closing parenthesis pushes a frame for the branch, which executes if the tests hold. -/
theorem run_headEnd (hcondition : condition conds = some executing) (joined : Joined)
    (value : Bool) : ∃ pushed,
    run setting ⟨conds, blocks, .tests head ⟨joined, [], .done value⟩⟩ [.rparen] =
      some (.next ⟨pushed, blocks, .headEnd head⟩ none) ∧
    (executing = true → condition pushed = some value) := by
  cases conds with
  | nil => cases hcondition
  | cons c rest =>
      obtain ⟨v, fallthru⟩ := c
      obtain rfl := Option.some_inj.mp hcondition
      cases head with
      | «if» => cases value <;> exact ⟨_, rfl, fun _ => rfl⟩
      | elseIf =>
          -- an `else if` looks at its tests only where it is executed
          cases v <;> cases fallthru <;> cases value <;>
            first
            | exact ⟨_, rfl, fun _ => rfl⟩
            | exact ⟨_, rfl, fun hfalse => absurd hfalse Bool.false_ne_true⟩

/-- The tests of an `if` or `else if` are accepted, and decide over the branch by their boolean
value, exactly if no parentheses in them hold an operator and every test in them has a
meaning. -/
theorem tests_accepted {p : Parser} (hstart : p.stmt = .ifStart head)
    (hcondition : condition p.conds = some executing) (e : TestExpr) :
    (∃ pushed, p.run setting (.lparen :: (e.tokens ++ [.rparen])) =
        some (.next ⟨pushed, p.blocks, .headEnd head⟩ none) ∧
      (executing = true → condition pushed = e.value setting)) ↔
    e.plain = true ∧ e.typed executing = true := by
  obtain ⟨conds, blocks, stmt⟩ := p
  obtain rfl : stmt = .ifStart head := hstart
  change (∃ pushed, run setting ⟨conds, blocks, .tests head ⟨.first, [], .expect⟩⟩
    (e.tokens ++ [.rparen]) = _ ∧ _) ↔ _
  constructor
  · rintro ⟨pushed, hrun, -⟩
    by_contra hbad
    have hrefused := @expr_refused setting conds blocks head executing hcondition e [.rparen]
      (List.forall_mem_singleton.mpr rfl)
      fun hplain => Bool.eq_false_iff.mpr fun htyped => hbad ⟨hplain, htyped⟩
    rw [hrun] at hrefused
    cases hrefused
  · rintro ⟨hplain, htyped⟩
    obtain ⟨joined, value, hvalue, hpasses⟩ :=
      @expr_passes setting conds blocks head executing hcondition e hplain htyped
    obtain ⟨pushed, hend, hpushed⟩ := run_headEnd hcondition joined value
    refine ⟨pushed, ?_, fun hexecuting => ?_⟩
    · rw [hpasses .rparen [] rfl, hend]
    · rw [hpushed hexecuting, hvalue hexecuting]

/-- The tests of `if (! (0) && "a" matches "a")`. -/
theorem tests_accepted_negation :
    ∃ pushed, run jobSetting ⟨conditionInit false, [], .ifStart .if⟩
      [.lparen, .bang, .lparen, .item (.ofInt ['0']), .rparen, .and, .item (.ofStr ['a']), .match,
        .item (.ofStr ['a']), .rparen] = some (.next ⟨pushed, [], .headEnd .if⟩ none) ∧
      condition pushed = some true := by
  obtain ⟨pushed, hrun, hvalue⟩ := (@tests_accepted jobSetting .if true
    ⟨conditionInit false, [], .ifStart .if⟩ rfl rfl
    (.join (.one (.not (.paren (.one (.item (.ofInt ['0'])))))) .and
      (.match (.ofStr ['a']) (.ofStr ['a'])))).mpr ⟨rfl, rfl⟩
  exact ⟨pushed, hrun, hvalue rfl⟩

/-- The parser refuses `if ((1 && 1))`. -/
theorem grouped_and_refused :
    (TestExpr.one (.paren (.join (.one (.item (.ofInt ['1']))) .and
      (.item (.ofInt ['1']))))).value jobSetting = some true ∧
    ¬ ∃ pushed, run jobSetting ⟨conditionInit false, [], .ifStart .if⟩
      (.lparen :: ((TestExpr.one (.paren (.join (.one (.item (.ofInt ['1']))) .and
        (.item (.ofInt ['1']))))).tokens ++ [.rparen])) =
      some (.next ⟨pushed, [], .headEnd .if⟩ none) := by
  refine ⟨rfl, ?_⟩
  rintro ⟨pushed, hrun⟩
  have hrecovering : run jobSetting ⟨conditionInit false, [], .ifStart .if⟩
      (.lparen :: ((TestExpr.one (.paren (.join (.one (.item (.ofInt ['1']))) .and
        (.item (.ofInt ['1']))))).tokens ++ [.rparen])) =
      some (.next ⟨conditionInit false, [], .recovering⟩ none) := rfl
  rw [hrecovering] at hrun
  cases hrun

end Parser

end SlurmSpank.UseEnv
