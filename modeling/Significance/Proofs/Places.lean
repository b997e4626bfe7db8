import Mathlib.Data.List.Basic
import Significance.Proofs.ReportNames

/-! # Places in a file tree

A path leads to one place, whatever is in the tree; the tree only decides whether the place can be
reached. So what steps leave at a place is what the last of them wrote there. -/

namespace Significance

/-! ## Names of a path -/

namespace Path

theorem pieces_ne_nil (text : List Char) : pieces text ≠ [] := by
  cases text with
  | nil => simp [pieces]
  | cons c rest =>
      rw [pieces]
      split
      · simp
      · split <;> simp

theorem pieces_append_slash (s t : List Char) : pieces (s ++ '/' :: t) = pieces s ++ pieces t := by
  induction s with
  | nil => simp [pieces]
  | cons c s ih =>
      rw [List.cons_append, pieces, ih, pieces]
      split
      · rfl
      · cases h : pieces s with
        | nil => exact absurd h (pieces_ne_nil s)
        | cons piece more => rfl

theorem pieces_of_slashFree {text : List Char} (h : '/' ∉ text) : pieces text = [text] := by
  induction text with
  | nil => rfl
  | cons c rest ih =>
      rw [List.mem_cons, not_or] at h
      rw [pieces, if_neg (Ne.symm h.1), ih h.2]

/-- Text without a slash only makes the last piece longer. -/
theorem exists_pieces_append (s : List Char) :
    ∃ before last, ∀ t, '/' ∉ t → pieces (s ++ t) = before ++ [last ++ t] := by
  induction s with
  | nil => exact ⟨[], [], fun _ ht => pieces_of_slashFree ht⟩
  | cons c s ih =>
      obtain ⟨before, last, hpieces⟩ := ih
      by_cases hc : c = '/'
      · refine ⟨[] :: before, last, fun t ht => ?_⟩
        rw [List.cons_append, pieces, if_pos hc, hpieces t ht, List.cons_append]
      · cases before with
        | nil =>
            refine ⟨[], c :: last, fun t ht => ?_⟩
            rw [List.cons_append, pieces, if_neg hc, hpieces t ht]
            rfl
        | cons piece before =>
            refine ⟨(c :: piece) :: before, last, fun t ht => ?_⟩
            rw [List.cons_append, pieces, if_neg hc, hpieces t ht]
            rfl

/-- A text that leads from a directory to a child of it. -/
structure IsName (name : String) : Prop where
  ne_empty : name ≠ ""
  ne_point : name ≠ "."
  ne_points : name ≠ ".."
  slashFree : '/' ∉ name.toList

theorem ne_of_long {name : String} (hlong : 2 < name.toList.length) (text : String)
    (htext : text.toList.length ≤ 2) : name ≠ text := by
  rintro rfl
  omega

theorem isName_of_long {name : String} (hlong : 2 < name.toList.length)
    (hslash : '/' ∉ name.toList) : IsName name :=
  ⟨ne_of_long hlong "" (by decide), ne_of_long hlong "." (by decide),
    ne_of_long hlong ".." (by decide), hslash⟩

theorem names_empty : names "" = [] := rfl

theorem names_append_slash (s t : String) : names (s ++ "/" ++ t) = names s ++ names t := by
  have hchars : (s ++ "/" ++ t).toList = s.toList ++ '/' :: t.toList := by
    simp
  rw [names, hchars, pieces_append_slash, List.map_append, List.filter_append]
  rfl

theorem join_of_head? {path : String} (directory : String) (h : path.toList.head? = some '/') :
    join directory path = path :=
  if_pos h

/-- The names of a path in a directory are those of the directory and those of the path. -/
theorem names_join {path : String} (directory : String) (hpath : path.toList.head? ≠ some '/') :
    names (join directory path) = names directory ++ names path := by
  rw [join_of_head?_ne directory hpath]
  split
  · next h =>
    rcases h with rfl | hlast
    · rw [String.empty_append, names_empty, List.nil_append]
    · obtain ⟨before, hbefore⟩ := List.getLast?_eq_some_iff.mp hlast
      have hdirectory : directory = String.ofList before ++ "/" := by
        apply String.toList_inj.mp
        simpa using hbefore
      have hself : names directory = names (String.ofList before) := by
        have happend := names_append_slash (String.ofList before) ""
        rwa [String.append_empty, ← hdirectory, names_empty, List.append_nil] at happend
      rw [hself, hdirectory, names_append_slash]
  · rw [names_append_slash]

theorem IsName.head?_ne {name : String} (h : IsName name) : name.toList.head? ≠ some '/' :=
  fun hhead => h.slashFree (List.mem_of_mem_head? hhead)

/-- A path in a directory starts at the root only if the directory or the path does. -/
theorem head?_join_ne {directory path : String} (hroot : directory.toList.head? ≠ some '/')
    (hpath : path.toList.head? ≠ some '/') : (join directory path).toList.head? ≠ some '/' := by
  cases hchars : directory.toList with
  | nil =>
      obtain rfl : directory = "" := String.toList_eq_nil_iff.mp hchars
      simpa [join] using hpath
  | cons c rest =>
      rw [hchars] at hroot
      rw [join_of_head?_ne directory hpath]
      split <;> simpa [hchars] using hroot

theorem names_of_isName {name : String} (h : IsName name) : names name = [name] := by
  rw [names, pieces_of_slashFree h.slashFree]
  simp [h.ne_empty, h.ne_point]

/-- An ending without a slash only makes the last name of a path longer. -/
theorem exists_names_append (s : String) :
    ∃ before last, ∀ ending : String, 2 < ending.toList.length → '/' ∉ ending.toList →
      names (s ++ ending) = before ++ [last ++ ending] := by
  obtain ⟨before, last, hpieces⟩ := exists_pieces_append s.toList
  refine ⟨(before.map String.ofList).filter fun name => name ≠ "" ∧ name ≠ ".", String.ofList last,
    fun ending hlong hslash => ?_⟩
  have hlast : String.ofList (last ++ ending.toList) = String.ofList last ++ ending := by
    rw [String.ofList_append, String.ofList_toList]
  have hlonger : 2 < (String.ofList last ++ ending).toList.length := by
    rw [String.toList_append, List.length_append]
    omega
  have hne := ne_of_long hlonger
  rw [names, String.toList_append, hpieces _ hslash, List.map_append, List.filter_append,
    List.map_singleton, hlast, List.filter_singleton]
  simp [hne "" (by decide), hne "." (by decide)]

end Path

/-! ## Places -/

namespace FileTree

variable {tree tree' : FileTree} {place : List String} {path content : String}

/-- The place that some names lead to from a directory, if they lead anywhere. -/
def resolve (place : List String) (names : List String) : List String :=
  names.foldl (fun place name => if name = ".." then place.dropLast else place ++ [name]) place

/-- The place that a path leads to, if it leads anywhere. -/
def destination (path : String) : List String :=
  resolve [] (Path.names path)

theorem resolve_cons (place : List String) (name : String) (names : List String) :
    resolve place (name :: names) =
      resolve (if name = ".." then place.dropLast else place ++ [name]) names := rfl

theorem resolve_append (place names more : List String) :
    resolve place (names ++ more) = resolve (resolve place names) more :=
  List.foldl_append

theorem destination_join {name : String} (directory : String) (h : Path.IsName name) :
    destination (Path.join directory name) = destination directory ++ [name] := by
  rw [destination, Path.names_join directory h.head?_ne, Path.names_of_isName h, resolve_append]
  simp [resolve, destination, h.ne_points]

/-- Following names leads to their place, where every directory on the way is there. -/
theorem follow_eq_some {names : List String} {place' : List String}
    (h : tree.follow place names = some place') : place' = resolve place names := by
  induction names generalizing place with
  | nil => exact (Option.some.inj h).symm
  | cons name names ih =>
      rw [follow] at h
      rw [resolve, List.foldl_cons]
      split at h
      · cases h
      · split at h
        · next hname =>
          rw [if_neg hname]
          exact ih h
        · next hname =>
          rw [if_pos (not_not.mp hname)]
          split at h
          · cases h
          · exact ih h

theorem follow_append (tree : FileTree) (place names more : List String) :
    tree.follow place (names ++ more) =
      (tree.follow place names).bind fun place' => tree.follow place' more := by
  induction names generalizing place with
  | nil => rfl
  | cons name names ih =>
      rw [List.cons_append, follow, follow]
      split
      · rfl
      · split
        · exact ih _
        · split
          · rfl
          · exact ih _

theorem place?_eq_some (h : tree.place? path = some place) : place = destination path := by
  unfold place? at h
  split at h
  · cases h
  · exact follow_eq_some h

/-! ## Writing a file -/

@[simp] theorem content?_put_self (tree : FileTree) (place : List String) (content : String) :
    (tree.put place content).content? place = some content := by
  unfold put content?
  rw [List.lookup_append, List.lookup_eq_none_iff.mpr, Option.none_or]
  · simp
  · intro file hfile
    have hne : file.1 ≠ place := of_decide_eq_true (List.mem_filter.mp hfile).2
    exact bne_iff_ne.mpr hne.symm

theorem content?_put_of_ne (tree : FileTree) {place other : List String} (content : String)
    (h : other ≠ place) : (tree.put place content).content? other = tree.content? other := by
  have hne : (other == place) = false := beq_eq_false_iff_ne.mpr h
  unfold put content?
  rw [List.lookup_append]
  simp only [List.lookup_cons, hne, List.lookup_nil, Option.or_none]
  induction tree.files with
  | nil => rfl
  | cons file files ih =>
      obtain ⟨own, text⟩ := file
      by_cases hown : own = place
      · subst hown
        rw [List.filter_cons_of_neg (by simp), ih, List.lookup_cons, hne]
      · rw [List.filter_cons_of_pos (by simpa using hown), List.lookup_cons, List.lookup_cons, ih]

@[simp] theorem isDirectory_put (tree : FileTree) (place : List String) (content : String)
    (other : List String) : (tree.put place content).isDirectory other = tree.isDirectory other :=
  rfl

@[simp] theorem place?_put (tree : FileTree) (place : List String) (content path : String) :
    (tree.put place content).place? path = tree.place? path := by
  have hfollow : ∀ names other, (tree.put place content).follow other names =
      tree.follow other names := by
    intro names
    induction names with
    | nil => exact fun _ => rfl
    | cons name names ih =>
        intro other
        rw [follow, follow, isDirectory_put, ih, ih]
  rw [place?, place?, hfollow]

theorem write?_eq_some (h : tree.write? path content = some tree') :
    tree' = tree.put (destination path) content := by
  obtain ⟨place, htarget, rfl⟩ := Option.map_eq_some_iff.mp h
  obtain ⟨place', hplace, htarget⟩ := Option.bind_eq_some_iff.mp htarget
  obtain ⟨name, -, hname⟩ := Option.bind_eq_some_iff.mp htarget
  split at hname
  · cases hname
  · cases hname
    rw [place?_eq_some hplace]

/-! ## Making directories -/

/-- The tree with more directories. -/
def withDirectories (tree : FileTree) (more : List (List String)) : FileTree :=
  { tree with directories := tree.directories ++ more }

/-- Making directories leaves the files and the directories that are there. -/
theorem exists_withDirectories {names : List String}
    (h : tree.makeFrom place names = some tree') : ∃ more, tree' = tree.withDirectories more := by
  induction names generalizing tree place with
  | nil =>
      rw [← Option.some.inj h]
      exact ⟨[], by rw [withDirectories, List.append_nil]⟩
  | cons name names ih =>
      rw [makeFrom] at h
      split at h
      · split at h
        · cases h
        · exact ih h
      · dsimp only at h
        split at h
        · exact ih h
        · split at h
          · cases h
          · obtain ⟨more, hmore⟩ := ih h
            refine ⟨[place ++ [name]] ++ more, ?_⟩
            rw [hmore, withDirectories, withDirectories, List.append_assoc]

theorem makeDirectories?_eq (h : tree.makeDirectories? path = some tree') :
    path.toList.head? ≠ some '/' ∧ tree.makeFrom [] (Path.names path) = some tree' := by
  unfold makeDirectories? at h
  split at h
  · cases h
  · next hroot => exact ⟨hroot, h⟩

theorem content?_makeDirectories (h : tree.makeDirectories? path = some tree')
    (place : List String) : tree'.content? place = tree.content? place := by
  obtain ⟨more, rfl⟩ := exists_withDirectories (makeDirectories?_eq h).2
  rfl

/-- Everything that leads to a place is a directory, and so is the place. -/
def Reachable (tree : FileTree) (place : List String) : Prop :=
  ∀ before, before <+: place → tree.isDirectory before

namespace Reachable

theorem nil (tree : FileTree) : tree.Reachable [] := by
  intro before hbefore
  rw [List.prefix_nil.mp hbefore]
  rfl

theorem isDirectory (h : tree.Reachable place) : tree.isDirectory place :=
  h place List.prefix_rfl

theorem dropLast (h : tree.Reachable place) : tree.Reachable place.dropLast :=
  fun before hbefore => h before (hbefore.trans (List.dropLast_prefix place))

theorem concat {name : String} (h : tree.Reachable place)
    (hname : tree.isDirectory (place ++ [name])) : tree.Reachable (place ++ [name]) := by
  intro before hbefore
  rcases List.prefix_concat_iff.mp hbefore with rfl | hbefore
  · exact hname
  · exact h before hbefore

theorem withDirectories (h : tree.Reachable place) (more : List (List String)) :
    (tree.withDirectories more).Reachable place := by
  intro before hbefore
  have hdirectory := h before hbefore
  simp only [FileTree.isDirectory, FileTree.withDirectories, List.contains_eq_mem,
    List.mem_append, Bool.or_eq_true, decide_eq_true_eq] at hdirectory ⊢
  exact hdirectory.imp_right Or.inl

end Reachable

/-- After the directories of a path are made the path can be followed. -/
theorem follow_of_makeFrom {names : List String} (h : tree.makeFrom place names = some tree')
    (hplace : tree.Reachable place) :
    tree'.follow place names = some (resolve place names) ∧
      tree'.isDirectory (resolve place names) := by
  induction names generalizing tree place with
  | nil =>
      rw [← Option.some.inj h]
      exact ⟨rfl, hplace.isDirectory⟩
  | cons name names ih =>
      have hstays : tree'.isDirectory place := by
        obtain ⟨more, rfl⟩ := exists_withDirectories h
        exact (hplace.withDirectories more).isDirectory
      rw [makeFrom] at h
      rw [follow, hstays, resolve_cons]
      split at h
      · next hname =>
        subst hname
        split at h
        · cases h
        · next hroot =>
          simpa [hroot] using ih h hplace.dropLast
      · next hname =>
        dsimp only at h
        split at h
        · next hthere =>
          simpa [hname] using ih h (hplace.concat hthere)
        · split at h
          · cases h
          · have hmade :
                (tree.withDirectories [place ++ [name]]).isDirectory (place ++ [name]) := by
              simp [FileTree.isDirectory, withDirectories]
            simpa [hname] using ih h ((hplace.withDirectories _).concat hmade)

theorem place?_of_makeDirectories (h : tree.makeDirectories? path = some tree') :
    tree'.place? path = some (destination path) ∧ tree'.isDirectory (destination path) := by
  obtain ⟨hroot, hmake⟩ := makeDirectories?_eq h
  obtain ⟨hfollow, hdirectory⟩ := follow_of_makeFrom hmake (Reachable.nil tree)
  rw [place?, if_neg hroot]
  exact ⟨hfollow, hdirectory⟩

theorem isDirectory_of_follow {names : List String} {place' : List String}
    (h : tree.follow place names = some place') (hdirectory : tree.isDirectory place') :
    tree.isDirectory place := by
  cases names with
  | nil =>
      rw [Option.some.inj h]
      exact hdirectory
  | cons name names =>
      rw [follow] at h
      split at h
      · cases h
      · next hthere => simpa using hthere

/-- Where a path leads to a directory there is nothing to make. -/
theorem makeDirectories?_self (hplace : tree.place? path = some place)
    (hdirectory : tree.isDirectory place) : tree.makeDirectories? path = some tree := by
  have hmake : ∀ names start, tree.follow start names = some place →
      tree.makeFrom start names = some tree := by
    intro names
    induction names with
    | nil => exact fun _ _ => rfl
    | cons name names ih =>
        intro start h
        rw [follow] at h
        rw [makeFrom]
        split at h
        · cases h
        · split at h
          · next hname =>
            rw [if_neg hname]
            dsimp only
            rw [if_pos (isDirectory_of_follow h hdirectory)]
            exact ih _ h
          · next hname =>
            rw [if_pos (not_not.mp hname)]
            split at h
            · cases h
            · next hroot =>
              rw [if_neg hroot]
              exact ih _ h
  unfold place? at hplace
  split at hplace
  · cases hplace
  · next hroot =>
    rw [makeDirectories?, if_neg hroot]
    exact hmake _ _ hplace

/-- A file can be written into a directory unless its name is too long or that of a directory. -/
theorem isSome_write?_iff {directory name : String} (content : String)
    (hplace : tree.place? directory = some place) (hdirectory : tree.isDirectory place)
    (hname : Path.IsName name) :
    (tree.write? (Path.join directory name) content).isSome ↔
      ¬tree.isDirectory (place ++ [name]) ∧ name.utf8ByteSize ≤ nameLimit := by
  have hchild : tree.place? (Path.join directory name) = some (place ++ [name]) := by
    unfold place? at hplace ⊢
    split at hplace
    · cases hplace
    · next hroot =>
      rw [if_neg (Path.head?_join_ne hroot hname.head?_ne),
        Path.names_join directory hname.head?_ne, Path.names_of_isName hname, follow_append,
        hplace]
      simp [follow, hdirectory, hname.ne_points]
  rw [write?, Option.isSome_map, target?, hchild]
  simp [not_or]

/-- A file cannot be written below a directory that is not there. -/
theorem write?_eq_none {directory first rest : String} (content : String)
    (hplace : tree.place? directory = some place) (hfirst : Path.IsName first)
    (hrest : Path.names rest ≠ []) (hmissing : ¬tree.isDirectory (place ++ [first])) :
    tree.write? (Path.join directory (first ++ "/" ++ rest)) content = none := by
  obtain ⟨name, names, hnames⟩ := List.exists_cons_of_ne_nil hrest
  have hhead : (first ++ "/" ++ rest).toList.head? ≠ some '/' := by
    obtain ⟨c, more, hchars⟩ := List.exists_cons_of_ne_nil
      (mt String.toList_eq_nil_iff.mp hfirst.ne_empty)
    have hfirstHead := hfirst.head?_ne
    simp only [String.toList_append, hchars] at hfirstHead ⊢
    exact hfirstHead
  have hnone : tree.place? (Path.join directory (first ++ "/" ++ rest)) = none := by
    unfold place? at hplace ⊢
    split at hplace
    · cases hplace
    · next hroot =>
      rw [if_neg (Path.head?_join_ne hroot hhead), Path.names_join directory hhead,
        Path.names_append_slash, Path.names_of_isName hfirst, hnames, follow_append, hplace]
      simp [follow, hfirst.ne_points, hmissing]
  rw [write?, target?, hnone]
  rfl

end FileTree

/-! ## Carrying out steps -/

namespace Program

variable {tree tree' : FileTree} {actions : List Action}

/-- The tree after some steps, if none of them fails. -/
def carryOut? (tree : FileTree) : List Action → Option FileTree
  | [] => some tree
  | .say _ :: rest => carryOut? tree rest
  | .complain _ :: rest => carryOut? tree rest
  | .makeDirectories path :: rest =>
    (tree.makeDirectories? path).bind fun tree => carryOut? tree rest
  | .write path content _ :: rest =>
    (tree.write? path content).bind fun tree => carryOut? tree rest

/-- The texts that are said. -/
def saidTexts (actions : List Action) : List String :=
  actions.filterMap fun
    | .say text => some text
    | _ => none

/-- The texts of the complaints. -/
def complaintTexts (actions : List Action) : List String :=
  actions.filterMap fun
    | .complain text => some text
    | _ => none

theorem carryOut?_append (tree : FileTree) (actions more : List Action) :
    carryOut? tree (actions ++ more) =
      (carryOut? tree actions).bind fun tree => carryOut? tree more := by
  induction actions generalizing tree with
  | nil => rfl
  | cons action actions ih =>
      cases action with
      | say text => exact ih tree
      | complain text => exact ih tree
      | makeDirectories path =>
          simp only [List.cons_append, carryOut?, ih, Option.bind_assoc]
      | write path content medium =>
          simp only [List.cons_append, carryOut?, ih, Option.bind_assoc]

/-- A plan of which no step fails ends with its own status, and everything in it is said. -/
theorem follow_eq (h : carryOut? tree actions = some tree') (said complaints : List String)
    (status : ℕ) :
    Outcome.follow ⟨tree, said, complaints, status⟩ actions =
      ⟨tree', said ++ saidTexts actions, complaints ++ complaintTexts actions, status⟩ := by
  induction actions generalizing tree said complaints with
  | nil =>
      cases h
      simp [Outcome.follow, saidTexts, complaintTexts]
  | cons action actions ih =>
      cases action with
      | say text =>
          rw [Outcome.follow, ih h]
          simp [saidTexts, complaintTexts]
      | complain text =>
          rw [Outcome.follow, ih h]
          simp [saidTexts, complaintTexts]
      | makeDirectories path =>
          obtain ⟨next, hnext, hrest⟩ := Option.bind_eq_some_iff.mp h
          rw [Outcome.follow, hnext]
          exact ih hrest said complaints
      | write path content medium =>
          obtain ⟨next, hnext, hrest⟩ := Option.bind_eq_some_iff.mp h
          rw [Outcome.follow, hnext]
          exact ih hrest said complaints

/-- What no step writes stays as it was, also if a step fails. -/
theorem content?_follow (outcome : Outcome) {place : List String}
    (hplace : place ∉ (writtenPaths actions).map FileTree.destination) :
    (outcome.follow actions).tree.content? place = outcome.tree.content? place := by
  induction actions generalizing outcome with
  | nil => rfl
  | cons action actions ih =>
      cases action with
      | say text => exact ih _ hplace
      | complain text => exact ih _ hplace
      | makeDirectories path =>
          rw [Outcome.follow]
          cases hmake : outcome.tree.makeDirectories? path with
          | none => rfl
          | some next => exact (ih _ hplace).trans (FileTree.content?_makeDirectories hmake place)
      | write path content medium =>
          obtain ⟨hne, hplace⟩ := not_or.mp (mt List.mem_cons.mpr hplace)
          rw [Outcome.follow]
          cases hwrite : outcome.tree.write? path content with
          | none => rfl
          | some next =>
              refine (ih _ hplace).trans ?_
              rw [FileTree.write?_eq_some hwrite]
              exact FileTree.content?_put_of_ne _ _ hne

theorem content?_of_notMem (h : carryOut? tree actions = some tree') {place : List String}
    (hplace : place ∉ (writtenPaths actions).map FileTree.destination) :
    tree'.content? place = tree.content? place := by
  have hkeeps := content?_follow ⟨tree, [], [], 0⟩ hplace
  rwa [follow_eq h] at hkeeps

/-- Of files that lead to different places each holds what was written to it. -/
theorem content?_of_mem (h : carryOut? tree actions = some tree')
    (hnodup : ((writtenPaths actions).map FileTree.destination).Nodup) {path content : String}
    {medium : Report.Medium} (hmem : .write path content medium ∈ actions) :
    tree'.content? (FileTree.destination path) = some content := by
  obtain ⟨before, after, rfl⟩ := List.append_of_mem hmem
  rw [carryOut?_append] at h
  obtain ⟨middle, -, h⟩ := Option.bind_eq_some_iff.mp h
  obtain ⟨next, hnext, hrest⟩ := Option.bind_eq_some_iff.mp h
  have hafter : FileTree.destination path ∉ (writtenPaths after).map FileTree.destination := by
    have hpaths : writtenPaths (before ++ .write path content medium :: after) =
        writtenPaths before ++ path :: writtenPaths after := by
      rw [writtenPaths, List.filterMap_append]
      rfl
    rw [hpaths, List.map_append, List.map_cons] at hnodup
    exact (List.nodup_cons.mp (List.nodup_append.mp hnodup).2.1).1
  rw [content?_of_notMem hrest hafter, FileTree.write?_eq_some hnext,
    FileTree.content?_put_self]

/-- A step that makes a directory or writes a file right in it, if it changes anything. -/
def StaysIn (directory : String) : Action → Prop
  | .say _ => True
  | .complain _ => True
  | .makeDirectories path => path = directory
  | .write path _ _ => ∃ name, Path.IsName name ∧ path = Path.join directory name

/-- Files can be written into a directory, one after another, unless the name of one of them is too
long or that of a directory. -/
theorem isSome_carryOut?_iff {directory : String} {place : List String}
    (hplace : tree.place? directory = some place) (hdirectory : tree.isDirectory place)
    (hstays : ∀ action ∈ actions, StaysIn directory action) :
    (carryOut? tree actions).isSome ↔
      ∀ name, Path.IsName name → Path.join directory name ∈ writtenPaths actions →
        ¬tree.isDirectory (place ++ [name]) ∧ name.utf8ByteSize ≤ FileTree.nameLimit := by
  induction actions generalizing tree with
  | nil => simp [carryOut?, writtenPaths]
  | cons action actions ih =>
      obtain ⟨hstay, hmore⟩ := List.forall_mem_cons.mp hstays
      cases action with
      | say text => exact ih hplace hdirectory hmore
      | complain text => exact ih hplace hdirectory hmore
      | makeDirectories path =>
          obtain rfl : path = directory := hstay
          rw [carryOut?, FileTree.makeDirectories?_self hplace hdirectory, Option.bind_some]
          exact ih hplace hdirectory hmore
      | write path content medium =>
          obtain ⟨name, hname, rfl⟩ := hstay
          have hpaths : writtenPaths (.write (Path.join directory name) content medium :: actions) =
              Path.join directory name :: writtenPaths actions := rfl
          have hfirst := FileTree.isSome_write?_iff content hplace hdirectory hname
          rw [carryOut?, hpaths]
          simp only [List.mem_cons]
          cases hwrite : tree.write? (Path.join directory name) content with
          | none =>
              rw [hwrite] at hfirst
              refine iff_of_false (by simp) fun hall => ?_
              exact Bool.false_ne_true (hfirst.mpr (hall name hname (Or.inl rfl)))
          | some next =>
              rw [hwrite] at hfirst
              have hnext := FileTree.write?_eq_some hwrite
              have hplace' : next.place? directory = some place := by
                rw [hnext, FileTree.place?_put, hplace]
              have hsame : ∀ other, next.isDirectory other = tree.isDirectory other := by
                rw [hnext]
                exact FileTree.isDirectory_put tree _ content
              have hrest := ih hplace' ((hsame place).trans hdirectory) hmore
              simp only [hsame] at hrest
              rw [Option.bind_some, hrest]
              constructor
              · rintro hall other hother (hpath | hmem)
                · obtain rfl := (Path.join_inj hother.head?_ne hname.head?_ne).mp hpath
                  exact hfirst.mp rfl
                · exact hall other hother hmem
              · exact fun hall other hother hmem => hall other hother (Or.inr hmem)

/-- Steps that stay in a directory leave everything but the files right in it as it was. -/
theorem StaysIn.exists_place {directory : String}
    (hstays : ∀ action ∈ actions, StaysIn directory action) (outcome : Outcome)
    {place : List String}
    (hchanged : (outcome.follow actions).tree.content? place ≠ outcome.tree.content? place) :
    ∃ name, Path.IsName name ∧ place = FileTree.destination directory ++ [name] := by
  have hmem := not_imp_comm.mp (content?_follow outcome) hchanged
  obtain ⟨path, hpath, rfl⟩ := List.mem_map.mp hmem
  obtain ⟨action, haction, hwrites⟩ := List.mem_filterMap.mp hpath
  cases action with
  | write path content medium =>
      obtain rfl := Option.some.inj hwrites
      obtain ⟨name, hname, rfl⟩ := hstays _ haction
      exact ⟨name, hname, FileTree.destination_join directory hname⟩
  | say text => cases hwrites
  | complain text => cases hwrites
  | makeDirectories path => cases hwrites

/-- What a plan leads to in a file tree. -/
def Plan.outcome (plan : Plan) (tree : FileTree) : Outcome :=
  Outcome.follow ⟨tree, [], [], plan.status⟩ plan.actions

example (d : Distribution Float) (words : List String) (time : Report.Moment) (tree : FileTree) :
    run d words time tree = (plan d words time tree.find).outcome tree := rfl

theorem Plan.outcome_eq {plan : Plan} (h : carryOut? tree plan.actions = some tree') :
    plan.outcome tree =
      ⟨tree', saidTexts plan.actions, complaintTexts plan.actions, plan.status⟩ :=
  follow_eq h [] [] plan.status

end Program

end Significance
