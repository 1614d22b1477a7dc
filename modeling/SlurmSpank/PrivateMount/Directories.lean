import Mathlib.Data.List.DropRight
import Mathlib.Data.List.Infix
import Mathlib.Logic.Function.Basic
import SlurmSpank.AutoAffinity.OptionErrors
import SlurmSpank.PrivateMount.Mount

/-! # Making a directory and those above it

What `_mkdir_p` does to a tree of directories and files. A path lists its names from the
directory up to the root.
-/

namespace SlurmSpank.PrivateMount

open AutoAffinity

/-! ## Trees -/

inductive Node where
  | missing
  | dir
  | file
  deriving DecidableEq

/-- A tree of files, where only a directory has something in it. -/
structure Tree where
  node : List Text → Node
  root : node [] = .dir
  parent : ∀ name path, node (name :: path) ≠ .missing → node path = .dir

namespace Tree

/-- What the kernel finds on its way to a path. -/
def walk (t : Tree) : List Text → Node
  | [] => .dir
  | name :: path => if t.walk path = .dir then t.node (name :: path) else t.walk path

theorem walk_eq_dir {t : Tree} {path : List Text} : t.walk path = .dir ↔ t.node path = .dir := by
  induction path with
  | nil => exact iff_of_true rfl t.root
  | cons name path ih =>
      rw [walk]
      split
      next => exact Iff.rfl
      next hnot =>
        refine iff_of_false hnot fun hdir => hnot (ih.mpr (t.parent name path ?_))
        simp [hdir]

theorem walk_eq_file {t : Tree} {path : List Text} :
    t.walk path = .file ↔ ∃ above, above <:+ path ∧ t.node above = .file := by
  induction path with
  | nil => simp [walk, t.root]
  | cons name path ih =>
      rw [walk]
      split
      next hdir =>
        constructor
        · exact fun hfile => ⟨_, List.suffix_rfl, hfile⟩
        · rintro ⟨above, habove, hfile⟩
          rcases List.suffix_cons_iff.mp habove with rfl | hpath
          · exact hfile
          · have hwalk := ih.mpr ⟨above, hpath, hfile⟩
            simp [hdir] at hwalk
      next hnot =>
        rw [ih]
        constructor
        · rintro ⟨above, habove, hfile⟩
          exact ⟨above, List.suffix_cons_iff.mpr (Or.inr habove), hfile⟩
        · rintro ⟨above, habove, hfile⟩
          rcases List.suffix_cons_iff.mp habove with rfl | hpath
          · exact absurd (walk_eq_dir.mpr (t.parent name path (by simp [hfile]))) hnot
          · exact ⟨above, hpath, hfile⟩

/-- A new directory. -/
def make (t : Tree) (name : Text) (path : List Text) (hparent : t.node path = .dir) : Tree where
  node := Function.update t.node (name :: path) .dir
  root := by rw [Function.update_of_ne (List.cons_ne_nil name path).symm, t.root]
  parent other below hbelow := by
    by_cases hself : below = name :: path
    · rw [hself, Function.update_self]
    · rw [Function.update_of_ne hself]
      by_cases hnew : other :: below = name :: path
      · obtain ⟨_, rfl⟩ := List.cons.inj hnew
        exact hparent
      · rw [Function.update_of_ne hnew] at hbelow
        exact t.parent other below hbelow

/-- `mkdir`, where some directories may not be made. -/
def mkdir (denied : List Text → Bool) (t : Tree) : List Text → MkdirAnswer × Tree
  | [] => (.present, t)
  | name :: path =>
      if hparent : t.node path = .dir then
        if t.node (name :: path) ≠ .missing then (.present, t)
        else if denied (name :: path) then (.failed, t)
        else (.made, t.make name path hparent)
      else if t.walk path = .file then (.failed, t)
      else (.noEntry, t)

end Tree

/-- The names of a path, from the last one up. -/
def components (path : Text) : List Text := (listSplit ['/'] path).reverse

/-- The text of the path below the root. -/
def pathText : List Text → Text
  | [] => []
  | name :: path => pathText path ++ '/' :: name

/-- The text of a path. -/
def fullPath (path : List Text) : Text := if path = [] then ['/'] else pathText path

/-- A name that stands for an entry of its directory. -/
def PlainName (name : Text) : Prop :=
  name ≠ [] ∧ '/' ∉ name ∧ name ≠ ['.'] ∧ name ≠ ['.', '.']

instance (name : Text) : Decidable (PlainName name) :=
  inferInstanceAs (Decidable (name ≠ [] ∧ '/' ∉ name ∧ name ≠ ['.'] ∧ name ≠ ['.', '.']))

/-- A kernel whose files are a tree. -/
structure OnTree (k : Kernel Tree) (denied : List Text → Bool) : Prop where
  mkdir : ∀ path t, k.mkdir path t = t.mkdir denied (components path)
  isDir : ∀ path t, k.isDir path t = decide (t.node (components path) = .dir)

/-! ## Texts of paths -/

/-- Separators in front of a text do not matter. -/
theorem nextTok_dropWhile (sep str : Text) :
    nextTok sep (str.dropWhile (· ∈ sep)) = nextTok sep str := by
  rw [nextTok, nextTok, List.dropWhile_idempotent]

theorem listSplit_dropWhile (sep str : Text) :
    listSplit sep (str.dropWhile (· ∈ sep)) = listSplit sep str := by
  cases hnext : nextTok sep str with
  | none => rw [listSplit_nil hnext, listSplit_nil ((nextTok_dropWhile sep str).trans hnext)]
  | some next =>
      rw [listSplit_cons hnext, listSplit_cons ((nextTok_dropWhile sep str).trans hnext)]

/-- The first name of a path. -/
theorem nextTok_name {name rest : Text} (hname : PlainName name)
    (hrest : ∀ c ∈ rest.head?, c = '/') :
    nextTok ['/'] ('/' :: name ++ rest) = some (name, rest.dropWhile (· ∈ ['/'])) := by
  obtain ⟨hne, hslash, _⟩ := hname
  obtain ⟨first, more, rfl⟩ := List.exists_cons_of_ne_nil hne
  have hfirst : first ∉ ['/'] := fun hmem =>
    hslash (List.mem_singleton.mp hmem ▸ List.mem_cons_self)
  have hall : ∀ c ∈ first :: more, decide (c ∉ ['/']) = true := by
    intro c hc
    simpa using fun heq : c = '/' => hslash (heq ▸ hc)
  have hstop : rest.takeWhile (fun c => decide (c ∉ ['/'])) = [] ∧
      rest.dropWhile (fun c => decide (c ∉ ['/'])) = rest := by
    cases rest with
    | nil => exact ⟨rfl, rfl⟩
    | cons c rest =>
        obtain rfl := hrest c rfl
        exact ⟨rfl, rfl⟩
  have hdrop : ('/' :: (first :: more) ++ rest).dropWhile (fun c => decide (c ∈ ['/'])) =
      first :: (more ++ rest) := by
    rw [List.cons_append, List.dropWhile_cons_of_pos (by decide), List.cons_append,
      List.dropWhile_cons_of_neg (by simpa using hfirst)]
  rw [nextTok, hdrop]
  simp only
  rw [← List.cons_append, List.takeWhile_append_of_pos hall, List.dropWhile_append_of_pos hall,
    hstop.1, hstop.2, List.append_nil]

theorem listSplit_names {names : List Text} (hnames : ∀ name ∈ names, PlainName name) :
    listSplit ['/'] (names.flatMap ('/' :: ·)) = names := by
  induction names with
  | nil => exact listSplit_nil rfl
  | cons name names ih =>
      obtain ⟨hname, hrest⟩ := List.forall_mem_cons.mp hnames
      have hhead : ∀ c ∈ (names.flatMap ('/' :: ·)).head?, c = '/' := by
        cases names with
        | nil => exact nofun
        | cons next more =>
            intro c hc
            cases hc
            rfl
      rw [List.flatMap_cons, listSplit_cons (nextTok_name hname hhead), listSplit_dropWhile,
        ih hrest]

theorem pathText_eq (path : List Text) : pathText path = path.reverse.flatMap ('/' :: ·) := by
  induction path with
  | nil => rfl
  | cons name path ih =>
      rw [pathText, ih, List.reverse_cons, List.flatMap_append, List.flatMap_singleton]

theorem components_fullPath {path : List Text} (hnames : ∀ name ∈ path, PlainName name) :
    components (fullPath path) = path := by
  have hreverse : ∀ name ∈ path.reverse, PlainName name := fun name hname =>
    hnames name (List.mem_reverse.mp hname)
  rw [components, fullPath]
  split
  next hnil =>
    have hroot : listSplit ['/'] ['/'] = [] := listSplit_nil rfl
    rw [hroot, hnil]
    rfl
  next => rw [pathText_eq, listSplit_names hreverse, List.reverse_reverse]

theorem trimSlashes_concat {front : Text} {c : Char} (hc : c ≠ '/') :
    trimSlashes (front ++ [c]) = front ++ [c] := by
  rw [trimSlashes, List.reverse_append, List.reverse_singleton, List.singleton_append,
    List.dropWhile_cons_of_neg (by simpa using hc), List.reverse_cons, List.reverse_reverse]

/-- A path does not end in a slash. -/
theorem trimSlashes_pathText {name : Text} {path : List Text} (hname : PlainName name) :
    trimSlashes (pathText (name :: path)) = pathText (name :: path) := by
  obtain ⟨hne, hslash, _⟩ := hname
  obtain rfl | ⟨front, last, rfl⟩ := List.eq_nil_or_concat name
  · exact absurd rfl hne
  · have hlast : last ≠ '/' := fun heq => hslash (by simp [heq])
    have htext : pathText ((front.concat last) :: path) =
        (pathText path ++ '/' :: front) ++ [last] := by
      simp [pathText]
    rw [htext, trimSlashes_concat hlast]

theorem dirname_fullPath {name : Text} {path : List Text}
    (hnames : ∀ other ∈ name :: path, PlainName other) :
    dirname (fullPath (name :: path)) = fullPath path := by
  obtain ⟨hname, hpath⟩ := List.forall_mem_cons.mp hnames
  have hslash : '/' ∉ name.reverse := fun hmem => hname.2.1 (List.mem_reverse.mp hmem)
  have hfull : fullPath (name :: path) = pathText (name :: path) := if_neg (List.cons_ne_nil _ _)
  have htext : pathText (name :: path) ≠ [] := by simp [pathText]
  -- what is left in front of the last name
  have habove : ((trimSlashes (pathText (name :: path))).reverse.dropWhile (· ≠ '/')).reverse =
      pathText path ++ ['/'] := by
    have hreverse : (pathText (name :: path)).reverse =
        name.reverse ++ '/' :: (pathText path).reverse := by
      simp [pathText]
    have hall : ∀ c ∈ name.reverse, decide (c ≠ '/') = true := by
      intro c hc
      simpa using fun heq : c = '/' => hslash (heq ▸ hc)
    rw [trimSlashes_pathText hname, hreverse, List.dropWhile_append_of_pos hall,
      List.dropWhile_cons_of_neg (by simp), List.reverse_cons, List.reverse_reverse]
  have hnotEmpty : pathText path ++ ['/'] ≠ [] := by simp
  rw [hfull, dirname]
  simp only [habove]
  rw [trimSlashes_pathText hname, if_neg htext, if_neg hnotEmpty]
  cases path with
  | nil => rfl
  | cons parent path =>
      obtain ⟨hparent, _⟩ := List.forall_mem_cons.mp hpath
      have hlong : pathText (parent :: path) ++ ['/'] ≠ ['/', '/'] := by
        intro heq
        have hone : pathText (parent :: path) = ['/'] := (List.append_inj' heq rfl).1
        have hlength := congrArg List.length hone
        have hpos := List.length_pos_of_ne_nil hparent.1
        simp only [pathText, List.length_append, List.length_cons, List.length_nil] at hlength
        omega
      have htrim : trimSlashes (pathText (parent :: path) ++ ['/']) =
          pathText (parent :: path) := by
        have hsame : trimSlashes (pathText (parent :: path) ++ ['/']) =
            trimSlashes (pathText (parent :: path)) := by
          rw [trimSlashes, List.reverse_append, List.reverse_singleton, List.singleton_append,
            List.dropWhile_cons_of_pos (by decide), trimSlashes]
        rw [hsame, trimSlashes_pathText hparent]
      have hparentText : pathText (parent :: path) ≠ [] := by simp [pathText]
      rw [if_neg hlong, htrim, if_neg hparentText, fullPath, if_neg (List.cons_ne_nil _ _)]

/-! ## Making all directories of a path -/

/-- Something on the path is a file, or is missing and may not be made. -/
def Blocked (denied : List Text → Bool) (t : Tree) (path : List Text) : Prop :=
  ∃ above, above <:+ path ∧
    (t.node above = .file ∨ t.node above = .missing ∧ denied above = true)

/-- A tree with some of the missing directories of a path. -/
def Grown (path : List Text) (t t' : Tree) : Prop :=
  ∀ other, t'.node other = t.node other ∨
    other <:+ path ∧ t.node other = .missing ∧ t'.node other = .dir

theorem Grown.refl (path : List Text) (t : Tree) : Grown path t t := fun _ => Or.inl rfl

theorem blocked_cons {denied : List Text → Bool} {t : Tree} {name : Text} {path : List Text} :
    Blocked denied t (name :: path) ↔
      (t.node (name :: path) = .file ∨
        t.node (name :: path) = .missing ∧ denied (name :: path) = true) ∨
      Blocked denied t path := by
  constructor
  · rintro ⟨above, habove, hnode⟩
    rcases List.suffix_cons_iff.mp habove with rfl | hpath
    · exact Or.inl hnode
    · exact Or.inr ⟨above, hpath, hnode⟩
  · rintro (hnode | ⟨above, hpath, hnode⟩)
    · exact ⟨name :: path, List.suffix_rfl, hnode⟩
    · exact ⟨above, List.suffix_cons_iff.mpr (Or.inr hpath), hnode⟩

/-- Nothing above a directory is in the way. -/
theorem not_blocked_of_dir {denied : List Text → Bool} {t : Tree} {path : List Text}
    (hdir : t.node path = .dir) : ¬ Blocked denied t path := by
  induction path with
  | nil =>
      rintro ⟨above, habove, hnode⟩
      rw [List.suffix_nil.mp habove, t.root] at hnode
      simp at hnode
  | cons name path ih =>
      rw [blocked_cons, hdir]
      have hparent := t.parent name path (by simp [hdir])
      simp [ih hparent]

/-- An attempt to make all directories of a path, with what it leaves. -/
structure Makes (denied : List Text → Bool) (path : List Text) (t : Tree) (ok : Bool)
    (t' : Tree) : Prop where
  allowed : ok = true ↔ ¬ Blocked denied t path
  stands : ok = true ↔ t'.node path = .dir
  grown : Grown path t t'

namespace Makes

variable {denied : List Text → Bool} {name : Text} {path : List Text} {t t' : Tree}

/-- Nothing is to be made of a directory. -/
theorem there (hdir : t.node path = .dir) : Makes denied path t true t where
  allowed := iff_of_true rfl (not_blocked_of_dir hdir)
  stands := iff_of_true rfl hdir
  grown := Grown.refl path t

theorem not_blocked (hmakes : Makes denied path t true t') : ¬ Blocked denied t path :=
  hmakes.allowed.mp rfl

theorem dir (hmakes : Makes denied path t true t') : t'.node path = .dir := hmakes.stands.mp rfl

theorem blocked (hmakes : Makes denied path t false t') : Blocked denied t path := by
  simpa using hmakes.allowed

theorem not_dir (hmakes : Makes denied path t false t') : t'.node path ≠ .dir := by
  simpa using hmakes.stands

/-- An entry of the last directory is left alone. -/
theorem node_below {ok : Bool} (hmakes : Makes denied path t ok t') :
    t'.node (name :: path) = t.node (name :: path) := by
  rcases hmakes.grown (name :: path) with hsame | ⟨hsuffix, _⟩
  · exact hsame
  · exact absurd hsuffix.length_le (by simp)

theorem grown_below {ok : Bool} (hmakes : Makes denied path t ok t') :
    Grown (name :: path) t t' := fun other =>
  (hmakes.grown other).imp_right fun hnew =>
    ⟨List.suffix_cons_iff.mpr (Or.inr hnew.1), hnew.2⟩

/-- Without its directory an entry cannot be made. -/
theorem stuck (hmakes : Makes denied path t false t') :
    Makes denied (name :: path) t false t' where
  allowed := by simp [blocked_cons, hmakes.blocked]
  stands := by
    have hnone : t'.node (name :: path) ≠ .dir := fun hnode =>
      hmakes.not_dir (t'.parent name path (by simp [hnode]))
    simp [hnone]
  grown := hmakes.grown_below

/-- An entry that is there already has to be a directory. -/
theorem present (hmakes : Makes denied path t true t')
    (hpresent : t.node (name :: path) ≠ .missing) :
    Makes denied (name :: path) t (decide (t'.node (name :: path) = .dir)) t' where
  allowed := by
    rw [decide_eq_true_eq, hmakes.node_below, blocked_cons]
    cases hnode : t.node (name :: path) with
    | missing => exact absurd hnode hpresent
    | dir => simp [hmakes.not_blocked]
    | file => simp
  stands := decide_eq_true_iff
  grown := hmakes.grown_below

/-- The entry may not be made. -/
theorem refused (hmakes : Makes denied path t true t')
    (hmissing : t.node (name :: path) = .missing) (hdenied : denied (name :: path) = true) :
    Makes denied (name :: path) t false t' where
  allowed := by simp [blocked_cons, hmissing, hdenied]
  stands := by simp [hmakes.node_below, hmissing]
  grown := hmakes.grown_below

/-- The entry is made. -/
theorem made (hmakes : Makes denied path t true t')
    (hmissing : t.node (name :: path) = .missing) (hallowed : ¬ denied (name :: path) = true) :
    Makes denied (name :: path) t true (t'.make name path hmakes.dir) where
  allowed := by simp [blocked_cons, hmissing, hallowed, hmakes.not_blocked]
  stands := by simp [Tree.make]
  grown other := by
    by_cases hself : other = name :: path
    · subst hself
      exact Or.inr ⟨List.suffix_rfl, hmissing, by simp [Tree.make]⟩
    · have hother : (t'.make name path hmakes.dir).node other = t'.node other := by
        simp [Tree.make, hself]
      rw [hother]
      exact hmakes.grown_below other

end Makes

/-- `_mkdir_p` makes missing directories of the path and nothing else. It succeeds exactly when
neither a file nor a directory that may not be made is in the way, and then all of the path is
there. -/
theorem mkdirP_tree {k : Kernel Tree} {denied : List Text → Bool} (hk : OnTree k denied)
    {path : List Text} (hnames : ∀ name ∈ path, PlainName name) (t : Tree) {depth : Nat}
    (hdepth : path.length < depth) :
    ∃ ok t', mkdirP k depth (fullPath path) t = some (ok, t') ∧
      (ok = true ↔ ¬ Blocked denied t path) ∧ (ok = true ↔ t'.node path = .dir) ∧
      Grown path t t' := by
  suffices hmakes : ∃ ok t', mkdirP k depth (fullPath path) t = some (ok, t') ∧
      Makes denied path t ok t' by
    obtain ⟨ok, t', hrun, hmade⟩ := hmakes
    exact ⟨ok, t', hrun, hmade.allowed, hmade.stands, hmade.grown⟩
  induction path generalizing depth with
  | nil =>
      obtain ⟨depth, rfl⟩ := Nat.exists_eq_succ_of_ne_zero (Nat.ne_of_gt hdepth)
      refine ⟨true, t, ?_, Makes.there t.root⟩
      rw [mkdirP, hk.mkdir, components_fullPath hnames, Tree.mkdir]
      simp only [hk.isDir, components_fullPath hnames, t.root, decide_true]
  | cons name path ih =>
      obtain ⟨depth, rfl⟩ := Nat.exists_eq_succ_of_ne_zero (Nat.ne_zero_of_lt hdepth)
      obtain ⟨_, hpath⟩ := List.forall_mem_cons.mp hnames
      have hcomponents := components_fullPath hnames
      rw [mkdirP, hk.mkdir, hcomponents, Tree.mkdir]
      by_cases hparent : t.node path = .dir
      · rw [dif_pos hparent]
        have hmakes : Makes denied path t true t := Makes.there hparent
        by_cases hmissing : t.node (name :: path) ≠ .missing
        · rw [if_pos hmissing]
          refine ⟨_, t, rfl, ?_⟩
          rw [hk.isDir, hcomponents]
          exact hmakes.present hmissing
        · rw [if_neg hmissing]
          by_cases hdenied : denied (name :: path) = true
          · rw [if_pos hdenied]
            exact ⟨false, t, rfl, hmakes.refused (not_not.mp hmissing) hdenied⟩
          · rw [if_neg hdenied]
            exact ⟨true, _, rfl, hmakes.made (not_not.mp hmissing) hdenied⟩
      · rw [dif_neg hparent]
        have hmissing : t.node (name :: path) = .missing := by
          by_contra hnode
          exact hparent (t.parent name path hnode)
        by_cases hfile : t.walk path = .file
        · -- the kernel says that something on the way is no directory
          rw [if_pos hfile]
          obtain ⟨above, habove, hnode⟩ := Tree.walk_eq_file.mp hfile
          have hblocked : Blocked denied t path := ⟨above, habove, Or.inl hnode⟩
          have hmakes : Makes denied path t false t :=
            ⟨by simp [hblocked], by simp [hparent], Grown.refl path t⟩
          exact ⟨false, t, rfl, hmakes.stuck⟩
        · rw [if_neg hfile]
          -- `_mkdir_p` calls itself for the directory, and then tries again.
          obtain ⟨ok, t', hrun, hmakes⟩ := ih hpath (Nat.lt_of_succ_lt_succ hdepth)
          simp only [dirname_fullPath hnames, hrun, Option.map_some]
          cases ok with
          | false => exact ⟨false, t', rfl, hmakes.stuck⟩
          | true =>
              have hstill : t'.node (name :: path) = .missing := hmakes.node_below.trans hmissing
              simp only [if_true, hk.mkdir, hcomponents, Tree.mkdir, dif_pos hmakes.dir, hstill,
                ne_eq, not_true_eq_false, if_false]
              by_cases hdenied : denied (name :: path) = true
              · simp only [if_pos hdenied]
                exact ⟨_, t', rfl, hmakes.refused hmissing hdenied⟩
              · simp only [if_neg hdenied]
                exact ⟨_, _, rfl, hmakes.made hmissing hdenied⟩

/-- A tree with nothing but a file in the root directory. -/
def oneFile : Tree where
  node path := if path = [] then .dir else if path = ["f".toList] then .file else .missing
  root := rfl
  parent name path hnode := by
    cases path with
    | nil => rfl
    | cons _ _ => simp at hnode

/-- A kernel on trees where everything may be made. -/
def treeKernel : Kernel Tree where
  unshare t := (true, t)
  bind t := (true, t)
  fstab _ := none
  mkdir path t := t.mkdir (fun _ => false) (components path)
  isDir path t := decide (t.node (components path) = .dir)
  mount _ t := (true, t)
  statfs _ _ := true

/-- The theorem for a directory two levels below the root. -/
theorem mkdirP_tree_twoLevels :
    ∃ ok t', mkdirP treeKernel 3 (fullPath ["b".toList, "a".toList]) oneFile = some (ok, t') ∧
      (ok = true ↔ ¬ Blocked (fun _ => false) oneFile ["b".toList, "a".toList]) ∧
      (ok = true ↔ t'.node ["b".toList, "a".toList] = .dir) ∧
      Grown ["b".toList, "a".toList] oneFile t' :=
  mkdirP_tree ⟨fun _ _ => rfl, fun _ _ => rfl⟩ (by decide) oneFile (by decide)

end SlurmSpank.PrivateMount
