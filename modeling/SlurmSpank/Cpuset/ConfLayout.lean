import SlurmSpank.Cpuset.ConfGrammar
import SlurmSpank.Cpuset.ConfLines

/-! # The layout of the cpuset configuration

Blank lines and comment lines that are put in or taken out between two lines, and the newline
of the last line. The parser does not notice them but in two cases. The first statement of a
text has to be followed by an end, where any other statement has not. And a backslash that is
a word of its own is the end of a line if a newline follows.
-/

namespace SlurmSpank.Cpuset

open Foundation

variable {ts us : List ConfToken} {t : ConfToken} {s : Setting} {ss : List Setting}
  {place : Place} {base : Front} {conf c c' : CpusetConf} {w : Text}

/-! ## Words that name nothing -/

/-- The characters that are in no name. -/
def special : List Char := ['\n', '"', '\x27', '\\']

/-- There is none of them in a word. -/
def plainWord (w : Text) : Bool := special.all fun c => !w.contains c

theorem plainWord.not_special (hplain : plainWord w = true) : ∀ c ∈ special, c ∉ w := by
  intro c hc hmem
  have hnot := List.all_eq_true.mp hplain c hc
  rw [List.contains_iff_mem.mpr hmem] at hnot
  exact Bool.false_ne_true hnot

theorem strcaseEq.not_special {name word : Text} (hname : strcaseEq name word)
    (hword : plainWord (word.map Char.toLower) = true) : ∀ c ∈ special, c ∉ name := by
  have hlower : special.all (fun c => c.toLower = c) = true := rfl
  intro c hc hmem
  refine plainWord.not_special hword c hc ?_
  rw [← show name.map Char.toLower = word.map Char.toLower from hname,
    ← of_decide_eq_true (List.all_eq_true.mp hlower c hc)]
  exact List.mem_map_of_mem hmem

theorem PolicyName.not_special (hname : PolicyName w s) : ∀ c ∈ special, c ∉ w := by
  cases hname with
  | bestFit => exact plainWord.not_special rfl
  | worstFit => exact plainWord.not_special rfl
  | firstFit => exact plainWord.not_special rfl

theorem IdleName.not_special (hname : IdleName w s) : ∀ c ∈ special, c ∉ w := by
  cases hname with
  | zero => exact plainWord.not_special rfl
  | one => exact plainWord.not_special rfl
  | never hname => exact hname.not_special rfl
  | no hname => exact hname.not_special rfl
  | yes hname => exact hname.not_special rfl
  | multiple hname => exact hname.not_special rfl
  | mult hname => exact hname.not_special rfl
  | gt hname => exact hname.not_special rfl
  | greater hname => exact hname.not_special rfl

theorem OrderName.not_special (hname : OrderName w s) : ∀ c ∈ special, c ∉ w := by
  cases hname with
  | reverse hname => exact hname.not_special rfl
  | normal hname => exact hname.not_special rfl

/-- A word with such a character is no value. -/
theorem not_valued_special {d : Char} (hd : d ∈ special) (hmem : d ∈ w) :
    ∀ k s, ¬ Valued k (.string w) s := by
  intro k s hvalued
  cases hvalued with
  | policy hname => exact hname.not_special d hd hmem
  | useIdle hname => exact hname.not_special d hd hmem
  | order hname => exact hname.not_special d hd hmem

/-! ## The place that is reached -/

/-- Where the parser is after some tokens. -/
def reach : Place → List ConfToken → CpusetConf → Option Place × CpusetConf
  | place, [], conf => (some place, conf)
  | place, t :: ts, conf =>
      match place.next t conf with
      | (none, conf) => (none, conf)
      | (some place, conf) => reach place ts conf

/-- The parser goes on from the place that it has reached. -/
theorem yyparse_append (ts us : List ConfToken) :
    yyparse place (ts ++ us) conf =
      match reach place ts conf with
      | (none, conf) => (1, conf)
      | (some place, conf) => yyparse place us conf := by
  induction ts generalizing place conf with
  | nil => rfl
  | cons t ts ih =>
      rw [List.cons_append, yyparse, reach]
      cases place.next t conf with
      | mk result conf =>
          cases result with
          | none => rfl
          | some place => exact ih

/-- A word that is no value is an error everywhere. -/
theorem yyparse_string (hnone : ∀ k s, ¬ Valued k (.string w) s) :
    yyparse place (.string w :: ts) conf = (1, conf) := by
  cases place with
  | front base => rfl
  | keyword base k => rfl
  | stmt => rfl
  | equals base k => rw [yyparse, next_refused (hnone k)]

/-- A newline leads behind `file stmts` from where the text may end or an end is missing. -/
theorem next_newline (place : Place) (conf : CpusetConf) :
    (place.next .newline conf = (some (.front .stmts), conf) ∧
        (place.accepts = true ∨ place = .stmt)) ∨
      place.next .newline conf = (none, conf) ∧ place.accepts = false := by
  cases place with
  | front base => exact Or.inl ⟨rfl, Or.inl rfl⟩
  | stmt => exact Or.inl ⟨rfl, Or.inr rfl⟩
  | keyword base k => exact Or.inr ⟨rfl, rfl⟩
  | equals base k =>
      cases k with
      | _ => exact Or.inr ⟨rfl, rfl⟩

/-- More newlines behind `file stmts` change nothing. -/
theorem yyparse_newlines (n : Nat) :
    yyparse (.front .stmts) (List.replicate n .newline ++ ts) conf =
      yyparse (.front .stmts) ts conf := by
  induction n with
  | zero => rfl
  | succ n ih =>
      rw [List.replicate_succ, List.cons_append, yyparse_end rfl, ih]

/-- Nor do they behind a newline. -/
theorem yyparse_behind_newline (us : List ConfToken) (n : Nat) :
    yyparse place (us ++ [.newline] ++ (List.replicate n .newline ++ ts)) conf =
      yyparse place (us ++ [.newline] ++ ts) conf := by
  rw [List.append_assoc, List.append_assoc, yyparse_append, yyparse_append]
  cases reach place us conf with
  | mk result conf =>
      cases result with
      | none => rfl
      | some place =>
          rcases next_newline place conf with ⟨hnext, -⟩ | ⟨hnext, -⟩
          · simp only [List.singleton_append, yyparse, hnext, yyparse_newlines]
          · simp only [List.singleton_append, yyparse, hnext]

/-! ## Lines between lines -/

/-- What stands behind a quotation mark that the text does not close is not read as valid. -/
theorem yyparse_unclosed {after x y : Text} (hlast : after.getLast? = some '\n')
    (hinside : ∀ rule n, ScanRule.scan ConfRule.all (after ++ x) = some (rule, n) →
      n ≤ after.length)
    (hdiff : ScanRule.scan ConfRule.all (after ++ x) ≠ ScanRule.scan ConfRule.all (after ++ y)) :
    yyparse place (ConfRule.tokens (after ++ x)) conf = (1, conf) ∧
      yyparse place (ConfRule.tokens (after ++ y)) conf = (1, conf) := by
  obtain ⟨mark, rest, k, m, hmark, rfl, hk, hplain, hquoted, hm⟩ :=
    ConfRule.scan_change hlast hinside hdiff
  rw [ConfRule.tokens_of_scan hplain, ConfRule.tokens_of_scan hquoted]
  constructor
  · -- The plain string starts with the mark.
    obtain ⟨j, rfl⟩ : ∃ j, k = j + 1 := ⟨k - 1, by omega⟩
    have hspecial : mark ∈ special := by
      rcases hmark with rfl | rfl
      · decide
      · decide
    exact yyparse_string (not_valued_special hspecial List.mem_cons_self)
  · -- The quotation contains the newline.
    have hne : mark ≠ '\n' := by
      rcases hmark with rfl | rfl
      · decide
      · decide
    have hrest : '\n' ∈ rest :=
      (List.mem_cons.mp (List.mem_of_getLast? hlast)).resolve_left (Ne.symm hne)
    have hle := Regex.longest_le (ScanRule.of_scan hquoted).2
    rw [List.length_append] at hle
    have htake : (mark :: rest ++ y).take m =
        mark :: (rest ++ y.take (m - (mark :: rest).length)) := by
      rw [List.take_append, List.take_of_length_le (Nat.le_of_lt hm), List.cons_append]
    have hbehind : y.take (m - (mark :: rest).length) ≠ [] := by
      apply List.ne_nil_of_length_pos
      rw [List.length_take]
      omega
    have hmem : '\n' ∈ (((mark :: rest ++ y).take m).dropLast).tail := by
      rw [htake, ← List.cons_append, List.dropLast_append_of_ne_nil hbehind, List.cons_append,
        List.tail_cons]
      exact List.mem_append_left _ hrest
    exact yyparse_string (not_valued_special (by decide) hmem)

/-- Lines that are put in behind a newline change nothing. -/
theorem yyparse_lines {pre post : Text} {lines : List Text} (hlast : pre.getLast? = some '\n')
    (hlexes : ScanRule.Lexes ConfRule.all ConfAction.act pre post ts)
    (hlines : ∀ line ∈ lines, ConfRule.LayoutLine line) :
    yyparse place (ConfRule.tokens (pre ++ (lines.flatten ++ post))) conf =
      yyparse place (ConfRule.tokens (pre ++ post)) conf := by
  have hproper := ConfRule.all_proper
  rcases hlexes.change_behind hproper (lines.flatten ++ post) with hlexes' |
    ⟨before, after, us, vs, rfl, hafter, rfl, hbefore, hbefore', hrest, hdiff⟩
  · obtain ⟨us, rfl⟩ := ConfRule.lexes_newline hlexes hlast
    have htext := hlexes.tokens hproper
    have hmore := hlexes'.tokens hproper
    have hblock := (ConfRule.lexes_layoutLines hlines post).tokens hproper
    rw [hblock] at hmore
    exact (congrArg (yyparse place · conf) hmore).trans ((yyparse_behind_newline us _).trans
      (congrArg (yyparse place · conf) htext).symm)
  · -- A quotation mark has not been closed.
    rw [List.getLast?_append_of_ne_nil _ hafter] at hlast
    have hinside : ∀ rule n, ScanRule.scan ConfRule.all (after ++ post) = some (rule, n) →
        n ≤ after.length := by
      intro rule n hscan
      have hle := hrest.width_le hafter hscan
      rwa [ConfRule.width_eq (ScanRule.of_scan hscan).1] at hle
    have htext := hbefore.tokens hproper
    have hmore := hbefore'.tokens hproper
    rw [List.append_assoc, List.append_assoc]
    refine (congrArg (yyparse place · conf) hmore).trans (Eq.trans ?_
      (congrArg (yyparse place · conf) htext).symm)
    rw [yyparse_append, yyparse_append]
    cases reach place us conf with
    | mk result conf =>
        cases result with
        | none => rfl
        | some place =>
            have hboth := @yyparse_unclosed place conf after post (lines.flatten ++ post) hlast
              hinside hdiff
            exact hboth.2.trans hboth.1.symm

/-! ## The first statement -/

/-- A text that starts with a statement that no end follows. -/
def Unended (ts : List ConfToken) (s : Setting) (rest : List ConfToken) : Prop :=
  ∃ first, ts = first ++ rest ∧ IsStmt first s ∧ ∀ t us, rest = t :: us → t.isEnd = false

/-- Such a text is rejected. -/
theorem Unended.yyparse_file (hunended : Unended ts s us) :
    yyparse (.front .file) ts conf = (1, s.apply conf) := by
  obtain ⟨first, rfl, hstmt, hend⟩ := hunended
  rw [yyparse_stmt hstmt]
  cases us with
  | nil => rfl
  | cons t us => exact yyparse_stmt_not_end (hend t us rfl)

/-- Behind a newline it would be read on. -/
theorem Unended.yyparse_stmts (hunended : Unended ts s us) :
    yyparse (.front .stmts) ts conf = yyparse (.front .stmts) us (s.apply conf) := by
  obtain ⟨first, rfl, hstmt, -⟩ := hunended
  exact yyparse_stmt hstmt

/-- Any other text is read like behind a newline. -/
theorem same_or_unended (ts : List ConfToken) (conf : CpusetConf) :
    yyparse (.front .file) ts conf = yyparse (.front .stmts) ts conf ∨
      ∃ s us, Unended ts s us := by
  obtain ⟨ss, left, hhead⟩ := exists_statements ts
  cases hhead with
  | stop hstuck => exact Or.inl ((yyparse_stuck hstuck).trans (yyparse_stuck hstuck).symm)
  | «end» hend _ => exact Or.inl ((yyparse_end hend).trans (yyparse_end hend).symm)
  | @stmt first us _ s _ hstmt _ =>
      by_cases hend : ∃ t vs, us = t :: vs ∧ t.isEnd = true
      · obtain ⟨t, vs, rfl, hend⟩ := hend
        rw [yyparse_stmt hstmt, yyparse_stmt hstmt]
        exact Or.inl ((yyparse_stmt_end hend).trans (yyparse_end hend).symm)
      · refine Or.inr ⟨s, us, first, rfl, hstmt, fun t vs heq => ?_⟩
        by_contra hnot
        exact hend ⟨t, vs, heq, Bool.not_eq_false _ ▸ hnot⟩

/-- The stack holds `file stmts`. -/
def Place.behindStmts : Place → Bool
  | .front .stmts | .keyword .stmts _ | .equals .stmts _ => true
  | _ => false

/-- From there the parser waits for no end. -/
theorem reach_behindStmts (hplace : place.behindStmts = true) :
    reach place ts conf ≠ (some .stmt, c) := by
  induction ts generalizing place conf with
  | nil =>
      intro hreach
      obtain rfl := Option.some_inj.mp (congrArg Prod.fst hreach)
      exact Bool.false_ne_true hplace
  | cons t ts ih =>
      have hnext : ∀ {p d}, place.next t conf = (some p, d) → p.behindStmts = true := by
        intro p d hnext
        unfold Place.next at hnext
        split at hnext
        next base =>
          split at hnext
          next k =>
            obtain rfl := Option.some_inj.mp (congrArg Prod.fst hnext)
            cases base with
            | file => exact absurd hplace Bool.false_ne_true
            | stmts => rfl
          next =>
            split at hnext
            next =>
              obtain rfl := Option.some_inj.mp (congrArg Prod.fst hnext)
              rfl
            next => exact absurd (congrArg Prod.fst hnext) (by simp)
        next base k =>
          split at hnext
          next =>
            obtain rfl := Option.some_inj.mp (congrArg Prod.fst hnext)
            cases base with
            | file => exact absurd hplace Bool.false_ne_true
            | stmts => rfl
          next => exact absurd (congrArg Prod.fst hnext) (by simp)
        next base k =>
          split at hnext
          next => exact absurd (congrArg Prod.fst hnext) (by simp)
          next =>
            split at hnext
            next => exact absurd (congrArg Prod.fst hnext) (by simp)
            next =>
              obtain rfl := Option.some_inj.mp (congrArg Prod.fst hnext)
              cases base with
              | file => exact absurd hplace Bool.false_ne_true
              | stmts => rfl
        next => exact absurd hplace Bool.false_ne_true
      rw [reach]
      cases hresult : place.next t conf with
      | mk result d =>
          cases result with
          | none => simp
          | some p => exact ih (hnext hresult)

/-- Behind its end it does not wait any more. -/
theorem reach_behindStmt : reach .stmt (t :: ts) conf ≠ (some .stmt, c) := by
  rw [reach, Place.next]
  by_cases hend : t.isEnd = true
  · rw [if_pos hend]
    exact reach_behindStmts rfl
  · rw [if_neg hend]
    simp

/-- The parser waits for the end of the first statement if the text is just that statement. -/
theorem reach_stmt (hreach : reach (.front .file) ts conf = (some .stmt, c)) :
    ∃ s, IsStmt ts s := by
  have hnone : ∀ d, (none, d) ≠ (some Place.stmt, c) := by simp
  cases ts with
  | nil => exact absurd (congrArg Prod.fst hreach) (by simp [reach])
  | cons t ts =>
      by_cases hend : t.isEnd = true
      · have hnext : (Place.front .file).next t conf = (some (.front .stmts), conf) := by
          cases t with
          | newline => rfl
          | semi => rfl
          | _ => exact absurd hend Bool.false_ne_true
        rw [reach, hnext] at hreach
        exact absurd hreach (reach_behindStmts rfl)
      cases t with
      | newline => exact absurd rfl hend
      | semi => exact absurd rfl hend
      | keyword k =>
          cases ts with
          | nil => exact absurd (congrArg Prod.fst hreach) (by simp [reach, Place.next])
          | cons u ts =>
              by_cases hequals : u = .equals
              · subst hequals
                cases ts with
                | nil => exact absurd (congrArg Prod.fst hreach) (by simp [reach, Place.next])
                | cons v ts =>
                    have hkeyword : reach (.front .file) (.keyword k :: .equals :: v :: ts) conf =
                        reach (.equals .file k) (v :: ts) conf := rfl
                    rw [hkeyword, reach] at hreach
                    by_cases hvalued : ∃ s, Valued k v s
                    · obtain ⟨s, hvalued⟩ := hvalued
                      rw [next_valued hvalued] at hreach
                      cases ts with
                      | nil => exact ⟨s, ⟨hvalued⟩⟩
                      | cons w ts => exact absurd hreach reach_behindStmt
                    · rw [next_refused fun s hs => hvalued ⟨s, hs⟩] at hreach
                      exact absurd hreach (hnone _)
              · simp only [reach, Place.next, if_neg hequals] at hreach
                exact absurd hreach (hnone _)
      | _ => exact absurd hreach (hnone _)

/-! ## The last line -/

/-- A newline at the end matters to a statement that waits for its end, and to nothing else. -/
theorem yyparse_concat (ts : List ConfToken) (conf : CpusetConf) :
    yyparse (.front .file) (ts ++ [.newline]) conf = yyparse (.front .file) ts conf ∨
      ∃ s, IsStmt ts s := by
  have htext := @yyparse_append (.front .file) conf ts []
  rw [List.append_nil] at htext
  rw [yyparse_append, htext]
  cases hreach : reach (.front .file) ts conf with
  | mk result c =>
      cases result with
      | none => exact Or.inl rfl
      | some place =>
          rcases next_newline place c with ⟨hnext, haccepts | rfl⟩ | ⟨hnext, hrefused⟩
          · refine Or.inl ?_
            simp only [yyparse, hnext, haccepts]
            rfl
          · exact Or.inr (reach_stmt hreach)
          · refine Or.inl ?_
            simp only [yyparse, hnext, hrefused]
            rfl

/-- A statement alone is accepted with a newline only. -/
theorem IsStmt.yyparse_concat (hstmt : IsStmt ts s) :
    yyparse (.front .file) ts conf = (1, s.apply conf) ∧
      yyparse (.front .file) (ts ++ [.newline]) conf = (0, s.apply conf) := by
  have halone := @yyparse_stmt ts [] s .file conf hstmt
  rw [List.append_nil] at halone
  exact ⟨halone, yyparse_stmt hstmt⟩

/-- A single backslash is an error, and the end of a line at most where a newline is. -/
theorem yyparse_lone (ts : List ConfToken) (conf : CpusetConf) :
    ∃ c, yyparse (.front .file) (ts ++ [.string ['\\']]) conf = (1, c) ∧
      (yyparse (.front .file) (ts ++ [.newline]) conf = (1, c) ∨
        yyparse (.front .file) (ts ++ [.newline]) conf = (0, c)) := by
  rw [yyparse_append, yyparse_append]
  cases reach (.front .file) ts conf with
  | mk result c =>
      cases result with
      | none => exact ⟨c, rfl, Or.inl rfl⟩
      | some place =>
          refine ⟨c, yyparse_string (not_valued_special (by decide) List.mem_cons_self), ?_⟩
          rcases next_newline place c with ⟨hnext, -⟩ | ⟨hnext, -⟩
          · refine Or.inr ?_
            simp only [yyparse, hnext]
            rfl
          · refine Or.inl ?_
            simp only [yyparse, hnext]

/-! ## Edits -/

/-- A change of the layout: lines are put in between two texts, or the last line gets its
newline. -/
inductive LayoutEdit where
  | lines (pre : Text) (lines : List Text) (post : Text)
  | finalNewline (text : Text)

namespace LayoutEdit

/-- The text without the lines or the newline. -/
def before : LayoutEdit → Text
  | lines pre _ post => pre ++ post
  | finalNewline text => text

/-- The text with them. -/
def after : LayoutEdit → Text
  | lines pre added post => pre ++ (added.flatten ++ post)
  | finalNewline text => text ++ ['\n']

/-- Blank lines or comment lines are put in at the start or behind a line, and not inside a
quotation. The newline was missing. -/
def Valid : LayoutEdit → Prop
  | lines pre added post =>
      (pre = [] ∨ pre.getLast? = some '\n') ∧
        (∃ ts, ScanRule.Lexes ConfRule.all ConfAction.act pre post ts) ∧
        added ≠ [] ∧ ∀ line ∈ added, ConfRule.LayoutLine line
  | finalNewline text => text.getLast? ≠ some '\n'

/-- Lines are put in front of a first statement that no end follows, and what follows it
counts. Or the newline is added to a text that is one statement, or that ends with a single
backslash where a newline can stand. -/
def Noticed (counts : Setting → List ConfToken → Prop) : LayoutEdit → Prop
  | lines pre _ post =>
      pre = [] ∧ ∃ s rest, Unended (ConfRule.tokens post) s rest ∧ counts s rest
  | finalNewline text =>
      (∃ s, IsStmt (ConfRule.tokens text) s) ∨
        ∃ ts ss, ConfRule.LoneBackslash text ts ∧ IsFile (ts ++ [.newline]) ss

end LayoutEdit

/-- Only valid statements and ends. -/
def AllValid (_ : Setting) (rest : List ConfToken) : Prop := ∃ ss, Statements rest ss []

/-- Only valid statements and ends, or valid statements at the head that change what the
setting in front of them has made of the configuration. -/
def HasEffect (conf : CpusetConf) (s : Setting) (rest : List ConfToken) : Prop :=
  ∃ ss left, Statements rest ss left ∧ (left = [] ∨ applyAll ss (s.apply conf) ≠ s.apply conf)

variable {edit : LayoutEdit}

/-- What the parser makes of a text. -/
def outcome (conf : CpusetConf) (text : Text) : Int × CpusetConf :=
  yyparse (.front .file) (ConfRule.tokens text) conf

/-- Lines at the start are newlines in front of the text. -/
theorem outcome_start {added : List Text} {post : Text} (hadded : added ≠ [])
    (hlines : ∀ line ∈ added, ConfRule.LayoutLine line) :
    outcome conf (added.flatten ++ post) =
      yyparse (.front .stmts) (ConfRule.tokens post) conf := by
  have hblock := (ConfRule.lexes_layoutLines hlines post).tokens ConfRule.all_proper
  obtain ⟨line, rest, rfl⟩ := List.exists_cons_of_ne_nil hadded
  refine (congrArg (yyparse (.front .file) · conf) hblock).trans ?_
  rw [List.length_cons, List.replicate_succ, List.cons_append, yyparse_end rfl, yyparse_newlines]
  rfl

theorem IsStmt.no_lone {ts : List ConfToken} (hstmt : IsStmt (ts ++ [.string ['\\']]) s) :
    False := by
  generalize heq : ts ++ [.string ['\\']] = us at hstmt
  cases hstmt with
  | @mk k v s hvalued =>
      have hlast := congrArg List.getLast? heq
      rw [List.getLast?_concat] at hlast
      obtain rfl : ConfToken.string ['\\'] = v := Option.some_inj.mp hlast
      exact not_valued_special (by decide) List.mem_cons_self k s hvalued

/-- An edit that changes the outcome is noticed, but for what the first statement leaves to
the rest of the text. -/
theorem LayoutEdit.Valid.outcome_cases (hvalid : edit.Valid) (conf : CpusetConf) :
    outcome conf edit.before = outcome conf edit.after ∨ (∀ counts, edit.Noticed counts) ∨
      ∃ s rest, (∀ counts : Setting → List ConfToken → Prop, counts s rest → edit.Noticed counts) ∧
        outcome conf edit.before = (1, s.apply conf) ∧
        outcome conf edit.after = yyparse (.front .stmts) rest (s.apply conf) := by
  cases edit with
  | lines pre added post =>
      obtain ⟨rfl | hlast, ⟨ts, hlexes⟩, hadded, hlines⟩ := hvalid
      · have hafter := @outcome_start conf added post hadded hlines
        rcases same_or_unended (ConfRule.tokens post) conf with hsame | ⟨s, rest, hunended⟩
        · exact Or.inl (hsame.trans hafter.symm)
        · exact Or.inr (Or.inr ⟨s, rest, fun counts hcounts => ⟨rfl, s, rest, hunended, hcounts⟩,
            hunended.yyparse_file, hafter.trans hunended.yyparse_stmts⟩)
      · exact Or.inl (yyparse_lines hlast hlexes hlines).symm
  | finalNewline text =>
      rcases ConfRule.tokens_concat text with ⟨ts, hlone⟩ | hmore
      · obtain ⟨htext, hmore⟩ := hlone.tokens
        obtain ⟨c, hbefore, hafter | hafter⟩ := yyparse_lone ts conf
        · refine Or.inl ?_
          rw [outcome, outcome, before, after, htext, hmore, hbefore, hafter]
        · obtain ⟨ss, hfile⟩ := isFile_of_yyparse (congrArg Prod.fst hafter)
          exact Or.inr (Or.inl fun counts => Or.inr ⟨ts, ss, hlone, hfile⟩)
      · rcases yyparse_concat (ConfRule.tokens text) conf with hsame | hstmt
        · refine Or.inl ?_
          rw [outcome, outcome, before, after, hmore, hsame]
        · exact Or.inr (Or.inl fun counts => Or.inl hstmt)

/-- What is noticed is rejected without the newline. -/
theorem LayoutEdit.Valid.noticed_cases (hvalid : edit.Valid)
    {counts : Setting → List ConfToken → Prop} (hnoticed : edit.Noticed counts)
    (conf : CpusetConf) :
    ((outcome conf edit.before).1 = 1 ∧ (outcome conf edit.after).1 = 0) ∨
      ∃ s rest, counts s rest ∧ outcome conf edit.before = (1, s.apply conf) ∧
        outcome conf edit.after = yyparse (.front .stmts) rest (s.apply conf) := by
  cases edit with
  | lines pre added post =>
      obtain ⟨-, -, hadded, hlines⟩ := hvalid
      obtain ⟨rfl, s, rest, hunended, hcounts⟩ := hnoticed
      exact Or.inr ⟨s, rest, hcounts, hunended.yyparse_file,
        (outcome_start hadded hlines).trans hunended.yyparse_stmts⟩
  | finalNewline text =>
      refine Or.inl ?_
      rw [outcome, outcome, before, after]
      rcases hnoticed with ⟨s, hstmt⟩ | ⟨ts, ss, hlone, hfile⟩
      · rcases ConfRule.tokens_concat text with ⟨ts, hlone⟩ | hmore
        · rw [hlone.tokens.1] at hstmt
          exact hstmt.no_lone.elim
        · obtain ⟨halone, hended⟩ := @IsStmt.yyparse_concat _ s conf hstmt
          rw [hmore, halone, hended]
          exact ⟨rfl, rfl⟩
      · obtain ⟨htext, hmore⟩ := hlone.tokens
        obtain ⟨c, hbefore, -⟩ := yyparse_lone ts conf
        rw [htext, hmore, hbefore, hfile.yyparse conf]
        exact ⟨rfl, rfl⟩

/-! ## Configuration files -/

/-- Two parses accept alike, and with the same configuration. -/
def SameOutcome (r r' : Int × CpusetConf) : Prop :=
  (r.1 = 0 ↔ r'.1 = 0) ∧ (r.1 = 0 → r.2 = r'.2)

theorem parse_outcome {inputs : Inputs} {path text : Text}
    (hopened : inputs.opened path = some text) :
    conf.parse inputs path =
      (if (outcome conf text).1 ≠ 0 then -1 else 0, (outcome conf text).2) := by
  have hparse : conf.parse inputs path = conf.parseText text := by
    simp only [CpusetConf.parse, hopened]
  rw [hparse, CpusetConf.parseText, outcome]
  cases yyparse (.front .file) (ConfRule.tokens text) conf with
  | mk rc c =>
      by_cases hrc : rc ≠ 0
      · simp only [if_pos hrc]
      · simp only [if_neg hrc]

/-- A change of the layout is seen in what is accepted and with which configuration just if it
is noticed with nothing but valid statements behind the first one. It is seen in the return
value and the configuration, that of a rejected file included, just if it is noticed with
statements behind the first one that have an effect. -/
theorem parse_layout (conf : CpusetConf) (edit : LayoutEdit) (inputs inputs' : Inputs)
    (path : Text) (hvalid : edit.Valid) (hbefore : inputs.opened path = some edit.before)
    (hafter : inputs'.opened path = some edit.after) :
    (SameOutcome (conf.parse inputs path) (conf.parse inputs' path) ↔
        ¬ edit.Noticed AllValid) ∧
      (conf.parse inputs path = conf.parse inputs' path ↔ ¬ edit.Noticed (HasEffect conf)) := by
  rw [parse_outcome hbefore, parse_outcome hafter]
  have hone : ¬ (-1 : Int) = 0 := by decide
  refine ⟨⟨?_, ?_⟩, ⟨?_, ?_⟩⟩
  · rintro ⟨hsame, -⟩ hnoticed
    rcases hvalid.noticed_cases hnoticed conf with ⟨hrejected, haccepted⟩ |
      ⟨s, rest, ⟨ss, hrest⟩, hrejected, haccepted⟩
    · rw [hrejected, haccepted] at hsame
      exact hone (hsame.mpr rfl)
    · rw [hrejected, haccepted, hrest.yyparse] at hsame
      exact hone (hsame.mpr rfl)
  · intro hnot
    rcases hvalid.outcome_cases conf with hsame | hnoticed | ⟨s, rest, hnoticed, hrejected, hread⟩
    · rw [hsame]
      exact ⟨Iff.rfl, fun _ => rfl⟩
    · exact absurd (hnoticed AllValid) hnot
    · obtain ⟨ss, left, hrest⟩ := exists_statements rest
      have hleft : left ≠ [] := by
        rintro rfl
        exact hnot (hnoticed AllValid ⟨ss, hrest⟩)
      rw [hrejected, hread, hrest.yyparse, if_neg hleft]
      exact ⟨Iff.rfl, fun hzero => absurd hzero hone⟩
  · intro hsame hnoticed
    rcases hvalid.noticed_cases hnoticed conf with ⟨hrejected, haccepted⟩ |
      ⟨s, rest, ⟨ss, left, hrest, heffect⟩, hrejected, hread⟩
    · rw [hrejected, haccepted] at hsame
      exact hone (congrArg Prod.fst hsame)
    · rw [hrejected, hread, hrest.yyparse] at hsame
      rcases heffect with rfl | heffect
      · exact hone (congrArg Prod.fst hsame)
      · exact heffect (congrArg Prod.snd hsame).symm
  · intro hnot
    rcases hvalid.outcome_cases conf with hsame | hnoticed | ⟨s, rest, hnoticed, hrejected, hread⟩
    · rw [hsame]
    · exact absurd (hnoticed _) hnot
    · obtain ⟨ss, left, hrest⟩ := exists_statements rest
      have hnone : ¬ (left = [] ∨ applyAll ss (s.apply conf) ≠ s.apply conf) := fun heffect =>
        hnot (hnoticed _ ⟨ss, left, hrest, heffect⟩)
      obtain ⟨hleft, hsame⟩ := not_or.mp hnone
      rw [hrejected, hread, hrest.yyparse, if_neg hleft, not_not.mp hsame]

/-- A comment line in front of a statement. -/
theorem parse_layout_comment :
    (SameOutcome
        (cpusetConfCreate.parse ⟨fun _ => true, fun _ => some "order=reverse\n".toList, []⟩
          "cpuset.conf".toList)
        (cpusetConfCreate.parse ⟨fun _ => true, fun _ => some "# order\norder=reverse\n".toList, []⟩
          "cpuset.conf".toList) ↔
        ¬ (LayoutEdit.lines [] ["# order\n".toList] "order=reverse\n".toList).Noticed AllValid) ∧
      (cpusetConfCreate.parse ⟨fun _ => true, fun _ => some "order=reverse\n".toList, []⟩
          "cpuset.conf".toList =
        cpusetConfCreate.parse ⟨fun _ => true, fun _ => some "# order\norder=reverse\n".toList, []⟩
          "cpuset.conf".toList ↔
        ¬ (LayoutEdit.lines [] ["# order\n".toList] "order=reverse\n".toList).Noticed
          (HasEffect cpusetConfCreate)) :=
  parse_layout cpusetConfCreate (.lines [] ["# order\n".toList] "order=reverse\n".toList)
    ⟨fun _ => true, fun _ => some "order=reverse\n".toList, []⟩
    ⟨fun _ => true, fun _ => some "# order\norder=reverse\n".toList, []⟩ "cpuset.conf".toList
    ⟨Or.inl rfl, ⟨[], .nil⟩, by simp, fun line hline =>
      ⟨[], "# order".toList, by simp, Or.inr rfl, by decide, List.mem_singleton.mp hline⟩⟩
    rfl rfl

/-- A file of one statement is rejected without its newline and accepted with it. -/
theorem no_final_newline :
    (LayoutEdit.finalNewline "policy=best-fit".toList).Valid ∧
      (cpusetConfCreate.parse ⟨fun _ => true, fun _ => some "policy=best-fit".toList, []⟩
        "cpuset.conf".toList).1 = -1 ∧
      (cpusetConfCreate.parse ⟨fun _ => true, fun _ => some "policy=best-fit\n".toList, []⟩
        "cpuset.conf".toList).1 = 0 := by
  refine ⟨?_, ?_, ?_⟩
  · exact (by decide : "policy=best-fit".toList.getLast? ≠ some '\n')
  · decide
  · decide

end SlurmSpank.Cpuset
