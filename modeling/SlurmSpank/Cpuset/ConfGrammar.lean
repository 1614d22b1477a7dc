import SlurmSpank.Cpuset.ConfParser
import SlurmSpank.Cpuset.Setting

/-! # The grammar of the cpuset configuration

The productions of `conf-parser.y`, with the settings that their statements ask for, and what
the parser does with them. A statement with a value that is not valid has no place in the
grammar.
-/

namespace SlurmSpank.Cpuset

variable {ts us vs : List ConfToken} {t v : ConfToken} {k : Keyword} {s : Setting}
  {ss rs : List Setting} {base : Front} {conf : CpusetConf}

/-! ## Productions -/

/-- The values that a keyword can be given. -/
inductive Valued : Keyword → ConfToken → Setting → Prop
  | policy {name : Text} {s : Setting} (hname : PolicyName name s) : Valued .policy (.string name) s
  | useIdle {name : Text} {s : Setting} (hname : IdleName name s) : Valued .useIdle (.string name) s
  | useIdleFalse : Valued .useIdle .false (.allocIdle false)
  | useIdleTrue : Valued .useIdle .true (.allocIdle true)
  | constMemTrue : Valued .constMem .true (.constrainMem true)
  | constMemFalse : Valued .constMem .false (.constrainMem false)
  | killOrphsTrue : Valued .killOrphs .true (.killOrphans true)
  | killOrphsFalse : Valued .killOrphs .false (.killOrphans false)
  | order {name : Text} {s : Setting} (hname : OrderName name s) : Valued .order (.string name) s

/-- `stmt`. -/
inductive IsStmt : List ConfToken → Setting → Prop
  | mk {k : Keyword} {v : ConfToken} {s : Setting} (hvalued : Valued k v s) :
      IsStmt [.keyword k, .equals, v] s

/-- `stmts`. -/
inductive IsStmts : List ConfToken → List Setting → Prop
  | ofEnd {t : ConfToken} (hend : t.isEnd = true) : IsStmts [t] []
  | stmtEnd {ts : List ConfToken} {t : ConfToken} {s : Setting} (hstmt : IsStmt ts s)
      (hend : t.isEnd = true) : IsStmts (ts ++ [t]) [s]
  | stmtsStmt {ts us : List ConfToken} {ss : List Setting} {s : Setting} (hstmts : IsStmts ts ss)
      (hstmt : IsStmt us s) : IsStmts (ts ++ us) (ss ++ [s])

/-- `file`. -/
inductive IsFile : List ConfToken → List Setting → Prop
  | empty : IsFile [] []
  | fileStmts {ts us : List ConfToken} {ss rs : List Setting} (hfile : IsFile ts ss)
      (hstmts : IsStmts us rs) : IsFile (ts ++ us) (ss ++ rs)

/-! ## Statements -/

theorem CpusetConf.cfOrder_sets (conf : CpusetConf) (name : Text) :
    SetsNamed conf (OrderName name) (conf.cfOrder name) where
  sets := by
    intro s hname
    cases hname with
    | reverse hname =>
        unfold cfOrder
        rw [if_pos hname]
        rfl
    | normal hname =>
        have hother : ¬ strcaseEq name "reverse".toList := by
          intro hreverse
          have hsame : strcaseEq "reverse".toList "normal".toList :=
            Eq.trans (Eq.symm hreverse) hname
          exact absurd hsame (by decide)
        unfold cfOrder
        rw [if_neg hother, if_pos hname]
        rfl
  refuses := by
    intro hnone
    unfold cfOrder
    split
    next heq => exact absurd (.reverse heq) (hnone _)
    next =>
      split
      next heq => exact absurd (.normal heq) (hnone _)
      next => exact ⟨show (-1 : Int) < 0 by decide, rfl⟩

/-- The actions pass on what a setter returns. -/
theorem SetsNamed.checked {named : Setting → Prop} {result : Int × CpusetConf}
    (hsets : SetsNamed conf named result) :
    SetsNamed conf named (if result.1 < 0 then (-1, result.2) else (0, result.2)) where
  sets := by
    intro s hnamed
    rw [hsets.sets s hnamed]
    rfl
  refuses := by
    intro hnone
    obtain ⟨hneg, hsame⟩ := hsets.refuses hnone
    rw [if_pos hneg]
    exact ⟨show (-1 : Int) < 0 by decide, hsame⟩

/-- A statement with a valid value sets it. -/
theorem stmt_valued (hvalued : Valued k v s) : conf.stmt k v = some (0, s.apply conf) := by
  cases hvalued with
  | policy hname => exact congrArg some ((conf.setPolicyString_sets _).checked.sets s hname)
  | useIdle hname => exact congrArg some ((conf.setAllocIdleString_sets _).checked.sets s hname)
  | order hname => exact congrArg some ((conf.cfOrder_sets _).sets s hname)
  | useIdleFalse => rfl
  | useIdleTrue => rfl
  | constMemTrue => rfl
  | constMemFalse => rfl
  | killOrphsTrue => rfl
  | killOrphsFalse => rfl

/-- Any other statement fails and changes nothing. -/
theorem stmt_refused (hnone : ∀ s, ¬ Valued k v s) :
    conf.stmt k v = none ∨ ∃ rc, rc < 0 ∧ conf.stmt k v = some (rc, conf) := by
  have hrefused : ∀ {named : Setting → Prop} {result : Int × CpusetConf},
      SetsNamed conf named result → (∀ s, ¬ named s) →
        ∃ rc, rc < 0 ∧ some result = some (rc, conf) := by
    intro named result hsets hnamed
    obtain ⟨hneg, hsame⟩ := hsets.refuses hnamed
    exact ⟨result.1, hneg, by rw [← hsame]⟩
  cases k with
  | policy =>
      cases v with
      | string name =>
          exact Or.inr (hrefused (conf.setPolicyString_sets name).checked
            fun s hname => hnone s (.policy hname))
      | _ => exact Or.inl rfl
  | useIdle =>
      cases v with
      | string name =>
          exact Or.inr (hrefused (conf.setAllocIdleString_sets name).checked
            fun s hname => hnone s (.useIdle hname))
      | true => exact absurd .useIdleTrue (hnone _)
      | false => exact absurd .useIdleFalse (hnone _)
      | _ => exact Or.inl rfl
  | constMem =>
      cases v with
      | true => exact absurd .constMemTrue (hnone _)
      | false => exact absurd .constMemFalse (hnone _)
      | _ => exact Or.inl rfl
  | killOrphs =>
      cases v with
      | true => exact absurd .killOrphsTrue (hnone _)
      | false => exact absurd .killOrphsFalse (hnone _)
      | _ => exact Or.inl rfl
  | order =>
      cases v with
      | string name =>
          exact Or.inr (hrefused (conf.cfOrder_sets name)
            fun s hname => hnone s (.order hname))
      | _ => exact Or.inl rfl

/-! ## Steps of the parser -/

theorem next_valued (hvalued : Valued k v s) :
    (Place.equals base k).next v conf = (some base.behindStmt, s.apply conf) := by
  simp only [Place.next, stmt_valued hvalued]
  rfl

theorem next_refused (hnone : ∀ s, ¬ Valued k v s) :
    (Place.equals base k).next v conf = (none, conf) := by
  simp only [Place.next]
  rcases @stmt_refused v k conf hnone with hstmt | ⟨rc, hneg, hstmt⟩
  · rw [hstmt]
  · simp only [hstmt, if_pos hneg]

theorem yyparse_stmt (hstmt : IsStmt ts s) :
    yyparse (.front base) (ts ++ us) conf = yyparse base.behindStmt us (s.apply conf) := by
  cases hstmt with
  | @mk k v s hvalued =>
      have hkeyword : yyparse (.front base) ([.keyword k, .equals, v] ++ us) conf =
          yyparse (.equals base k) (v :: us) conf := rfl
      rw [hkeyword, yyparse, next_valued hvalued]

theorem yyparse_end (hend : t.isEnd = true) :
    yyparse (.front base) (t :: ts) conf = yyparse (.front .stmts) ts conf := by
  cases t with
  | newline => rfl
  | semi => rfl
  | _ => exact absurd hend Bool.false_ne_true

theorem yyparse_stmt_end (hend : t.isEnd = true) :
    yyparse .stmt (t :: ts) conf = yyparse (.front .stmts) ts conf := by
  simp only [yyparse, Place.next, hend, if_true]

theorem yyparse_stmt_not_end (hend : t.isEnd = false) :
    yyparse .stmt (t :: ts) conf = (1, conf) := by
  simp [yyparse, Place.next, hend]

/-! ## Statements in a row -/

/-- The configuration with several settings, one after the other. -/
def applyAll (ss : List Setting) (conf : CpusetConf) : CpusetConf :=
  ss.foldl (fun conf s => s.apply conf) conf

theorem applyAll_append : applyAll (ss ++ rs) conf = applyAll rs (applyAll ss conf) :=
  List.foldl_append

/-- No statement and no end stands at the head. -/
structure Stuck (ts : List ConfToken) : Prop where
  no_end : ∀ t us, ts = t :: us → t.isEnd = false
  no_stmt : ∀ us vs s, ts = us ++ vs → ¬ IsStmt us s

/-- The statements and ends at the head of a text, what they set, and what is left. -/
inductive Statements : List ConfToken → List Setting → List ConfToken → Prop
  | stop {ts : List ConfToken} (hstuck : Stuck ts) : Statements ts [] ts
  | end {t : ConfToken} {ts us : List ConfToken} {ss : List Setting} (hend : t.isEnd = true)
      (hrest : Statements ts ss us) : Statements (t :: ts) ss us
  | stmt {ts us vs : List ConfToken} {s : Setting} {ss : List Setting} (hstmt : IsStmt ts s)
      (hrest : Statements us ss vs) : Statements (ts ++ us) (s :: ss) vs

/-- The parser stops where neither a statement nor an end comes. -/
theorem yyparse_stuck (hstuck : Stuck ts) :
    yyparse (.front base) ts conf = (if ts = [] then 0 else 1, conf) := by
  cases ts with
  | nil => rfl
  | cons t us =>
      have hend := hstuck.no_end t us rfl
      rw [if_neg (List.cons_ne_nil t us)]
      cases t with
      | keyword k =>
          cases us with
          | nil => rfl
          | cons u vs =>
              by_cases hequals : u = .equals
              · subst hequals
                cases vs with
                | nil => rfl
                | cons v ws =>
                    have hnone : ∀ s, ¬ Valued k v s := fun s hvalued =>
                      hstuck.no_stmt [.keyword k, .equals, v] ws s rfl ⟨hvalued⟩
                    have hkeyword : yyparse (.front base)
                        (.keyword k :: .equals :: v :: ws) conf =
                          yyparse (.equals base k) (v :: ws) conf := rfl
                    rw [hkeyword, yyparse, next_refused hnone]
              · simp only [yyparse, Place.next, if_neg hequals]
      | _ => simp [yyparse, Place.next, hend]

/-- Behind `file stmts` the parser takes statements as long as there are any. -/
theorem Statements.yyparse (hstmts : Statements ts ss us) :
    yyparse (.front .stmts) ts conf =
      (if us = [] then 0 else 1, applyAll ss conf) := by
  induction hstmts generalizing conf with
  | stop hstuck => exact yyparse_stuck hstuck
  | «end» hend _ ih => exact (yyparse_end hend).trans ih
  | stmt hstmt _ ih => exact (yyparse_stmt hstmt).trans ih

theorem exists_statements (ts : List ConfToken) : ∃ ss us, Statements ts ss us := by
  induction hlength : ts.length using Nat.strongRecOn generalizing ts with
  | _ length ih =>
      by_cases hend : ∃ t us, ts = t :: us ∧ t.isEnd = true
      · obtain ⟨t, us, rfl, hend⟩ := hend
        obtain ⟨ss, vs, hrest⟩ := ih us.length (hlength ▸ Nat.lt_succ_self us.length) us rfl
        exact ⟨ss, vs, .end hend hrest⟩
      by_cases hstmt : ∃ us vs s, ts = us ++ vs ∧ IsStmt us s
      · obtain ⟨us, vs, s, rfl, hstmt⟩ := hstmt
        have hshort : vs.length < length := by
          obtain ⟨_⟩ := hstmt
          rw [← hlength, List.length_append]
          exact Nat.lt_add_of_pos_left (Nat.succ_pos 2)
        obtain ⟨ss, ws, hrest⟩ := ih vs.length hshort vs rfl
        exact ⟨s :: ss, ws, .stmt hstmt hrest⟩
      · refine ⟨[], ts, .stop ⟨?_, ?_⟩⟩
        · intro t us hcons
          by_contra hnot
          exact hend ⟨t, us, hcons, Bool.not_eq_false _ ▸ hnot⟩
        · intro us vs s hsplit hstmt'
          exact hstmt ⟨us, vs, s, hsplit, hstmt'⟩

/-! ## Files -/

theorem IsStmts.yyparse (hstmts : IsStmts us rs) (vs : List ConfToken) :
    yyparse (.front base) (us ++ vs) conf = yyparse (.front .stmts) vs (applyAll rs conf) := by
  induction hstmts generalizing vs with
  | ofEnd hend => exact yyparse_end hend
  | stmtEnd hstmt hend =>
      rw [List.append_assoc, yyparse_stmt hstmt]
      cases base with
      | file => exact yyparse_stmt_end hend
      | stmts => exact yyparse_end hend
  | stmtsStmt _ hstmt ih =>
      rw [List.append_assoc, ih, yyparse_stmt hstmt, applyAll_append]
      rfl

theorem IsFile.yyparse_append (hfile : IsFile ts ss) (vs : List ConfToken) :
    ∃ base, ∀ conf,
      yyparse (.front .file) (ts ++ vs) conf = yyparse (.front base) vs (applyAll ss conf) := by
  induction hfile generalizing vs with
  | empty => exact ⟨.file, fun conf => rfl⟩
  | fileStmts _ hstmts ih =>
      obtain ⟨base, hbase⟩ := ih (_ ++ vs)
      refine ⟨.stmts, fun conf => ?_⟩
      rw [List.append_assoc, hbase, hstmts.yyparse, applyAll_append]

/-- A file of the grammar is accepted and its settings are made in order. -/
theorem IsFile.yyparse (hfile : IsFile ts ss) (conf : CpusetConf) :
    yyparse (.front .file) ts conf = (0, applyAll ss conf) := by
  obtain ⟨base, hbase⟩ := hfile.yyparse_append []
  have hend := hbase conf
  rw [List.append_nil] at hend
  exact hend

/-- Behind `stmts` come statements and ends in any order. -/
theorem IsStmts.isFile (hfile : IsFile ts ss) (hstmts : IsStmts us rs) {qs : List Setting}
    (hrest : Statements vs qs []) : IsFile (ts ++ (us ++ vs)) (ss ++ (rs ++ qs)) := by
  generalize hleft : [] = left at hrest
  induction hrest generalizing ts us ss rs with
  | stop =>
      subst hleft
      rw [List.append_nil, List.append_nil]
      exact .fileStmts hfile hstmts
  | @«end» t vs _ _ hend _ ih =>
      have hnext := ih (.fileStmts hfile hstmts) (.ofEnd hend) hleft
      simpa only [List.append_assoc, List.singleton_append, List.nil_append] using hnext
  | @stmt xs ys _ s _ hstmt _ ih =>
      have hnext := ih hfile (.stmtsStmt hstmts hstmt) hleft
      simpa only [List.append_assoc, List.singleton_append] using hnext

/-- What is accepted is a file of the grammar. -/
theorem isFile_of_yyparse (haccepted : (yyparse (.front .file) ts conf).1 = 0) :
    ∃ ss, IsFile ts ss := by
  have hone : (1 : Int) ≠ 0 := by decide
  have hstmts : ∀ {vs : List ConfToken} {conf : CpusetConf},
      (yyparse (.front .stmts) vs conf).1 = 0 → ∃ qs, Statements vs qs [] := by
    intro vs conf haccepted
    obtain ⟨qs, left, hrest⟩ := exists_statements vs
    rw [hrest.yyparse] at haccepted
    by_cases hleft : left = []
    · exact ⟨qs, hleft ▸ hrest⟩
    · rw [if_neg hleft] at haccepted
      exact absurd haccepted hone
  obtain ⟨ss, us, hhead⟩ := exists_statements ts
  cases hhead with
  | stop hstuck =>
      rw [yyparse_stuck hstuck] at haccepted
      by_cases hnil : ts = []
      · exact ⟨[], hnil ▸ .empty⟩
      · rw [if_neg hnil] at haccepted
        exact absurd haccepted hone
  | «end» hend _ =>
      rw [yyparse_end hend] at haccepted
      obtain ⟨qs, hrest⟩ := hstmts haccepted
      exact ⟨qs, IsStmts.isFile .empty (.ofEnd hend) hrest⟩
  | @stmt _ vs _ s _ hstmt _ =>
      rw [yyparse_stmt hstmt] at haccepted
      cases vs with
      | nil => exact absurd haccepted hone
      | cons t vs =>
          by_cases hend : t.isEnd = true
          · rw [Front.behindStmt, yyparse_stmt_end hend] at haccepted
            obtain ⟨qs, hrest⟩ := hstmts haccepted
            have hfile := IsStmts.isFile .empty (.stmtEnd hstmt hend) hrest
            rw [List.nil_append, List.append_assoc] at hfile
            exact ⟨_, hfile⟩
          · rw [Front.behindStmt, yyparse_stmt_not_end (Bool.eq_false_iff.mpr hend)] at haccepted
            exact absurd haccepted hone

end SlurmSpank.Cpuset
