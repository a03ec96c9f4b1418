import Mathlib.Data.List.DropRight
import Mathlib.Data.List.Lex
import Mathlib.Data.List.Sort

/-!
# Slash-separated paths

Cleaning, joining and taking the last element of a path, as far as they concern the files
of one directory.  A path is the list of its bytes.  All files of a directory get the same
text before their name, so sorting the paths sorts the names.
-/

namespace Conduit.Paths

abbrev Bytes := List UInt8

def bytes (text : String) : Bytes :=
  text.toUTF8.data.toList

def slash : UInt8 := 47
def dot : Bytes := [46]
def dotdot : Bytes := [46, 46]

/-- A name that an entry of a directory can have. -/
structure FileName (name : Bytes) : Prop where
  slash : slash ∉ name
  nonempty : name ≠ []
  dot : name ≠ dot
  dotdot : name ≠ dotdot

/-! ## Cleaning and joining -/

/-- Enter one element of a path: `..` leaves the innermost element, if there is one. -/
def enter (rooted : Bool) (elements : List Bytes) (element : Bytes) : List Bytes :=
  if element = [] ∨ element = dot then elements
  else if element = dotdot then
    match elements.getLast? with
    | some innermost =>
        if innermost = dotdot then elements ++ [dotdot] else elements.dropLast
    | none => if rooted then [] else [dotdot]
  else elements ++ [element]

def rooted (path : Bytes) : Bool :=
  path.head? == some slash

def root (path : Bytes) : Bytes :=
  if rooted path then [slash] else []

def elements (path : Bytes) : List Bytes :=
  (path.splitOn slash).foldl (enter (rooted path)) []

/-- The shortest path with the same meaning. -/
def clean (path : Bytes) : Bytes :=
  if root path ++ [slash].intercalate (elements path) = [] then dot
  else root path ++ [slash].intercalate (elements path)

def join (dir name : Bytes) : Bytes :=
  if dir = [] then
    if name = [] then [] else clean name
  else clean (dir ++ slash :: name)

/-- The last element of a path. -/
def base (path : Bytes) : Bytes :=
  if path = [] then dot
  else
    let element := (path.rdropWhile (· == slash)).rtakeWhile (· != slash)
    if element = [] then [slash] else element

/-- What stands before the name in the path of a file in the directory. -/
def folder (dir : Bytes) : Bytes :=
  root dir ++ ((elements dir).map (· ++ [slash])).flatten

theorem intercalate_append_singleton (parts : List Bytes) (name : Bytes) :
    [slash].intercalate (parts ++ [name]) = (parts.map (· ++ [slash])).flatten ++ name := by
  induction parts with
  | nil => simp [List.intercalate]
  | cons part parts ih =>
      have hrest : parts ++ [name] ≠ [] := by simp
      rw [List.cons_append, List.intercalate_cons_of_ne_nil hrest, ih]
      simp [List.append_assoc]

theorem enter_fileName {name : Bytes} (hname : FileName name) (rooted : Bool)
    (elements : List Bytes) : enter rooted elements name = elements ++ [name] := by
  have hskip : ¬(name = [] ∨ name = dot) := by
    intro hskip
    exact hskip.elim hname.nonempty hname.dot
  rw [enter, if_neg hskip, if_neg hname.dotdot]

theorem clean_fileName {name : Bytes} (hname : FileName name) : clean name = name := by
  have hroot : rooted name = false := by
    cases hcase : name with
    | nil => rfl
    | cons byte rest =>
        have hbyte : byte ≠ slash := by
          intro hbyte
          exact hname.slash (by simp [hcase, hbyte])
        simp [rooted, hbyte]
  have helements : elements name = [name] := by
    rw [elements, List.splitOn_eq_singleton hname.slash]
    exact enter_fileName hname _ []
  simp [clean, root, hroot, helements, List.intercalate, hname.nonempty]

theorem clean_append {dir name : Bytes} (hdir : dir ≠ []) (hname : FileName name) :
    clean (dir ++ slash :: name) = folder dir ++ name := by
  have hrooted : rooted (dir ++ slash :: name) = rooted dir := by
    cases dir with
    | nil => exact absurd rfl hdir
    | cons byte rest => rfl
  have helements : elements (dir ++ slash :: name) = elements dir ++ [name] := by
    rw [elements, hrooted, List.splitOn_append_cons_self,
      List.splitOn_eq_singleton hname.slash, List.foldl_append]
    exact enter_fileName hname _ _
  have htext : root (dir ++ slash :: name) ++
      [slash].intercalate (elements (dir ++ slash :: name)) = folder dir ++ name := by
    rw [helements, intercalate_append_singleton, root, hrooted, folder, root, List.append_assoc]
  rw [clean, htext, if_neg]
  simp [hname.nonempty]

theorem join_eq {dir name : Bytes} (hname : FileName name) :
    join dir name = folder dir ++ name := by
  by_cases hdir : dir = []
  · rw [join, if_pos hdir, if_neg hname.nonempty, clean_fileName hname, hdir]
    rfl
  · rw [join, if_neg hdir, clean_append hdir hname]

/-- The folder is empty or ends in a slash. -/
theorem folder_eq (dir : Bytes) : folder dir = [] ∨ ∃ path, folder dir = path ++ [slash] := by
  unfold folder
  rcases List.eq_nil_or_concat (elements dir) with hnil | ⟨parts, part, hparts⟩
  · rw [hnil]
    unfold root
    split
    · exact .inr ⟨[], rfl⟩
    · exact .inl rfl
  · right
    rw [hparts]
    exact ⟨root dir ++ ((parts.map (· ++ [slash])).flatten ++ part), by simp⟩

theorem base_join {dir name : Bytes} (hname : FileName name) : base (join dir name) = name := by
  have hbytes : ∀ byte ∈ name.reverse, (byte != slash) = true := by
    intro byte hbyte
    have hne : byte ≠ slash := by
      intro hslash
      exact hname.slash (hslash ▸ List.mem_reverse.mp hbyte)
    simpa using hne
  have hreverse : name.reverse ≠ [] := by simp [hname.nonempty]
  have hkeep : (folder dir ++ name).rdropWhile (· == slash) = folder dir ++ name := by
    rw [List.rdropWhile_eq_self_iff]
    intro hne
    rw [List.getLast_append_of_ne_nil hne hname.nonempty]
    simpa using hbytes _ (List.mem_reverse.mpr (List.getLast_mem hname.nonempty))
  have htake : (folder dir ++ name).rtakeWhile (· != slash) = name := by
    unfold List.rtakeWhile
    rw [List.reverse_append, List.takeWhile_append_of_pos hbytes]
    rcases folder_eq dir with hfolder | ⟨path, hfolder⟩
    · simp [hfolder]
    · simp [hfolder]
  rw [join_eq hname, base, if_neg (by simp [hname.nonempty]), hkeep, htake]
  exact if_neg hname.nonempty

/-! ## The order of the names -/

/-- The order of strings: byte by byte. -/
def Before (first second : Bytes) : Prop :=
  List.Lex (fun a b : UInt8 => a.toNat < b.toNat) first second

instance : DecidableRel Before :=
  fun first second =>
    inferInstanceAs (Decidable (List.Lex (fun a b : UInt8 => a.toNat < b.toNat) first second))

def sortStrings (strings : List Bytes) : List Bytes :=
  strings.insertionSort fun first second => ¬Before second first

/-- Whatever stands between two strings is after the first or before the second. -/
theorem Before.or_before {first second : Bytes} (hbefore : Before first second)
    (other : Bytes) : Before first other ∨ Before other second := by
  induction hbefore generalizing other with
  | nil =>
      cases other with
      | nil => exact .inr .nil
      | cons => exact .inl .nil
  | @rel a _ b _ hbyte =>
      cases other with
      | nil => exact .inr .nil
      | cons c rest =>
          by_cases hfirst : a.toNat < c.toNat
          · exact .inl (.rel hfirst)
          · exact .inr (.rel (by omega))
  | @cons a _ _ _ ih =>
      cases other with
      | nil => exact .inr .nil
      | cons c rest =>
          rcases Nat.lt_trichotomy a.toNat c.toNat with hless | hsame | hmore
          · exact .inl (.rel hless)
          · rw [← UInt8.toNat_inj.mp hsame]
            exact (ih rest).imp .cons .cons
          · exact .inr (.rel hmore)

theorem eq_of_not_before {first second : Bytes} (hfirst : ¬Before first second)
    (hsecond : ¬Before second first) : first = second := by
  induction first generalizing second with
  | nil =>
      cases second with
      | nil => rfl
      | cons => exact absurd .nil hfirst
  | cons a rest ih =>
      cases second with
      | nil => exact absurd .nil hsecond
      | cons b others =>
          have hle : ¬a.toNat < b.toNat := fun hless => hfirst (.rel hless)
          have hge : ¬b.toNat < a.toNat := fun hless => hsecond (.rel hless)
          have hbyte : a = b := UInt8.toNat_inj.mp (by omega)
          subst hbyte
          rw [ih (fun hrest => hfirst (.cons hrest)) fun hrest => hsecond (.cons hrest)]

theorem Before.asymm {first second : Bytes} (hbefore : Before first second) :
    ¬Before second first := by
  intro hback
  induction hbefore with
  | nil => cases hback
  | rel hbyte =>
      cases hback with
      | rel hback => exact Nat.lt_asymm hbyte hback
      | cons => exact Nat.lt_irrefl _ hbyte
  | cons _ ih =>
      cases hback with
      | rel hback => exact Nat.lt_irrefl _ hback
      | cons hback => exact ih hback

theorem Before.irrefl (text : Bytes) : ¬Before text text :=
  fun hbefore => hbefore.asymm hbefore

theorem before_append_iff (front first second : Bytes) :
    Before (front ++ first) (front ++ second) ↔ Before first second := by
  induction front with
  | nil => rfl
  | cons byte front ih =>
      rw [← ih]
      constructor
      · intro hbefore
        cases hbefore with
        | rel hbyte => exact absurd hbyte (Nat.lt_irrefl _)
        | cons hrest => exact hrest
      · exact .cons

theorem pairwise_sortStrings {strings : List Bytes} (hnodup : strings.Nodup) :
    (sortStrings strings).Pairwise Before := by
  have htotal : Std.Total fun first second : Bytes => ¬Before second first := by
    constructor
    intro first second
    by_cases hbefore : Before second first
    · exact .inr hbefore.asymm
    · exact .inl hbefore
  have htrans : IsTrans Bytes fun first second => ¬Before second first := by
    constructor
    intro first second third hfirst hsecond hbefore
    exact (hbefore.or_before second).elim hsecond hfirst
  have hsorted : (sortStrings strings).Pairwise fun first second => ¬Before second first :=
    List.pairwise_insertionSort _ strings
  have hdistinct : (sortStrings strings).Nodup :=
    (List.perm_insertionSort _ strings).nodup_iff.mpr hnodup
  apply (hsorted.and hdistinct).imp
  intro first second hpair
  by_contra hbefore
  exact hpair.2 (eq_of_not_before hbefore hpair.1)

/-- Sorting the paths of files in one directory sorts their names. -/
theorem pairwise_base_sortStrings {dir : Bytes} {names : List Bytes}
    (hnames : ∀ name ∈ names, FileName name) (hnodup : names.Nodup) :
    ((sortStrings (names.map (join dir))).map base).Pairwise Before := by
  have hpaths : (names.map (join dir)).Nodup := by
    apply hnodup.map_on
    intro first hfirst second hsecond hequal
    rw [← base_join (hnames first hfirst), hequal, base_join (hnames second hsecond)]
  rw [List.pairwise_map]
  apply (pairwise_sortStrings hpaths).imp_of_mem
  intro first second hfirst hsecond hbefore
  rw [sortStrings, List.mem_insertionSort, List.mem_map] at hfirst hsecond
  obtain ⟨name, hname, rfl⟩ := hfirst
  obtain ⟨other, hother, rfl⟩ := hsecond
  rw [base_join (hnames name hname), base_join (hnames other hother)]
  rw [join_eq (hnames name hname), join_eq (hnames other hother)] at hbefore
  exact (before_append_iff _ _ _).mp hbefore

theorem mem_base_sortStrings {dir : Bytes} {names : List Bytes}
    (hnames : ∀ name ∈ names, FileName name) {name : Bytes} (hname : name ∈ names) :
    name ∈ (sortStrings (names.map (join dir))).map base := by
  rw [List.mem_map]
  refine ⟨join dir name, ?_, base_join (hnames name hname)⟩
  rw [sortStrings, List.mem_insertionSort]
  exact List.mem_map_of_mem hname

end Conduit.Paths
