import FastSigner.Sign.Args
import FastSigner.Sign.Footprint

/-!
# Where the signed APKs go

`planOutputs` follows `plan_outputs`: with `--out-dir` every APK keeps its file name, and two
of one name are refused; without it nothing is refused.  A file has many names, `a.apk` and
`./a.apk`; `locate` gives the one place that a name leads to, and a job works on places.
`Isolated` is what signing several APKs at once needs: no job changes a file that another one
looks at.

`isolated_iff`: what is planned is isolated, but for two cases that the plan lets pass, an
APK that is named twice and signed in place, and one that is named like the temporary file of
another.
-/

namespace FastSigner.Sign

open Lib

/-! ### Paths as they are written -/

/-- `PathBuf::from`, as far as `Path::components` tells. -/
def Path.parse (s : String) : Path :=
  let pieces := (s.toList.splitOn '/').map String.ofList
  let component (p : String) : Option Component :=
    if p = "" ∨ p = "." then none
    else if p = ".." then some .parent
    else some (.normal (utf8 p))
  let front : List Component :=
    match pieces with
    | "" :: _ :: _ => [.root]
    | "." :: _ => [.cur]
    | _ => []
  front ++ pieces.filterMap component

def TextName (name : Bytes) : Prop := ∃ t, name = utf8 t ∧ name ≠ []

theorem ne_nil_of_utf8 {t : String} (h : t ≠ "") : utf8 t ≠ [] := by
  intro hnil
  refine h ?_
  rw [← fromUtf8Lossy_utf8 t, hnil]
  rfl

theorem textName_of_mem {s : String} {name : Bytes} (h : .normal name ∈ Path.parse s) :
    TextName name := by
  rw [Path.parse] at h
  rcases List.mem_append.mp h with h | h
  · exfalso
    split at h
    · cases List.mem_singleton.mp h
    · cases List.mem_singleton.mp h
    · cases h
  · obtain ⟨t, -, ht⟩ := List.mem_filterMap.mp h
    split at ht
    · cases ht
    · rename_i hne
      split at ht
      · cases ht
      · obtain rfl := Component.normal.inj (Option.some.inj ht)
        exact ⟨t, rfl, ne_nil_of_utf8 fun h => hne (Or.inl h)⟩

theorem fileName_eq_some {p : Path} {name : Bytes} (h : p.fileName = some name) :
    ∃ parent : Path, p = parent.join name := by
  rw [Path.fileName] at h
  split at h
  · rename_i name' hlast
    obtain rfl := Option.some.inj h
    exact ⟨p.dropLast, (List.dropLast_append_getLast? _ hlast).symm⟩
  · cases h

@[simp] theorem fileName_join (dir : Path) (name : Bytes) : (dir.join name).fileName = some name := by
  simp [Path.fileName, Path.join]

theorem join_inj {dir dir' : Path} {name name' : Bytes} (h : dir.join name = dir'.join name') :
    dir = dir' ∧ name = name' := by
  obtain ⟨hdir, hname⟩ := List.append_inj' h rfl
  exact ⟨hdir, Component.normal.inj (List.singleton_inj.mp hname)⟩

theorem textName_of_fileName {s : String} {name : Bytes} (h : (Path.parse s).fileName = some name) :
    TextName name := by
  obtain ⟨parent, hp⟩ := fileName_eq_some h
  exact textName_of_mem (by rw [hp, Path.join]; simp)

def tempName (name : Bytes) : Bytes := ascii "." ++ name ++ ascii ".fastsigner-tmp"

theorem tempName_inj {a b : Bytes} (h : tempName a = tempName b) : a = b :=
  List.append_cancel_left (List.append_cancel_right h)

theorem tempPath_join (dir : Path) {name : Bytes} (h : TextName name) :
    tempPath (dir.join name) = dir.join (tempName name) := by
  obtain ⟨t, rfl, -⟩ := h
  rw [tempPath, Path.withFileName, fileName_join, Option.map_some, Option.getD_some,
    fromUtf8Lossy_utf8, Option.isSome_some, if_pos rfl, Path.join, List.dropLast_concat]
  rfl

/-! ### The plan -/

/-- Why there is no plan. -/
inductive PlanError
  | createDir (dir : String) (e : IoError) -- "{dir}: {e}"
  | notFileName (input : String) -- "{input}: not a file name"
  | sameOutput (out : Path) -- "two inputs would both be written to {out}"

section Plan

variable (canonicalize : Path → Option Path) (createDirAll : Path → Option IoError)

/-- `same_file`; `canonicalize` fails if there is no such file. -/
def sameFile (a b : Path) : Bool :=
  match canonicalize a, canonicalize b with
  | some x, some y => decide (x = y)
  | _, _ => false

/-- An output that is the input is none: the APK is signed in place. -/
def output (out : Path) (input : String) : Option Path :=
  (some out).filter fun o => !sameFile canonicalize o (Path.parse input)

/-- The loop of `plan_outputs`. -/
def planDir (dir : Path) : (seen : List Path) → List String → Except PlanError (List (Option Path))
  | _, [] => .ok []
  | seen, input :: rest =>
    match (Path.parse input).fileName with
    | none => .error (.notFileName input)
    | some name =>
      if dir.join name ∈ seen then .error (.sameOutput (dir.join name))
      else do
        let outs ← planDir dir (seen ++ [dir.join name]) rest
        .ok (output canonicalize (dir.join name) input :: outs)

/-- `plan_outputs`: where every APK goes, `none` means in place. -/
def planOutputs (a : Args) : Except PlanError (List (Option Path)) :=
  match a.out with
  | some out => .ok [output canonicalize (Path.parse out) (a.inputs.head a.inputs_ne)]
  | none =>
    match a.outDir with
    | none => .ok (List.replicate a.inputs.length none)
    | some dir =>
      match createDirAll (Path.parse dir) with
      | some e => .error (.createDir dir e)
      | none => planDir canonicalize (Path.parse dir) [] a.inputs

end Plan

/-- Where a path leads, on a tree without symbolic links: `locate` gives the absolute path without
`.` and `..`, and so does `canonicalize` if there is such a file. -/
structure Located (canonicalize : Path → Option Path) (locate : Path → Path) : Prop where
  canonical : ∀ p x, canonicalize p = some x → locate p = x
  join : ∀ (dir : Path) (name : Bytes), locate (dir.join name) = (locate dir).join name

def Args.dest (a : Args) (input : String) : Path :=
  match a.out, a.outDir with
  | some out, _ => Path.parse out
  | none, some dir => (Path.parse dir).join ((Path.parse input).fileName.getD [])
  | none, none => Path.parse input

/-- One job for every input, on the files that the paths lead to. -/
def planJobs (locate : Path → Path) (a : Args) (outs : List (Option Path)) (key : Option Signer)
    (threads : Nat) : List Job :=
  List.zipWith (fun input out =>
    ⟨locate (Path.parse input), out.map locate, a.opts, key, threads, some 16⟩) a.inputs outs

section Plan

variable {canonicalize : Path → Option Path} {createDirAll : Path → Option IoError}
  {locate : Path → Path}

theorem locate_of_sameFile (hc : Located canonicalize locate) {a b : Path}
    (h : sameFile canonicalize a b = true) : locate a = locate b := by
  rw [sameFile] at h
  split at h
  · rename_i x y ha hb
    obtain rfl := of_decide_eq_true h
    rw [hc.canonical a x ha, hc.canonical b x hb]
  · cases h

theorem getD_output (hc : Located canonicalize locate) (out : Path) (input : String) :
    ((output canonicalize out input).map locate).getD (locate (Path.parse input)) = locate out := by
  rw [output]
  cases hsame : sameFile canonicalize out (Path.parse input) with
  | true =>
    rw [Option.filter_some, hsame]
    exact (locate_of_sameFile hc hsame).symm
  | false =>
    rw [Option.filter_some, hsame]
    rfl

/-- **What the loop lets pass**: inputs that have a file name each, none of them taken. -/
theorem planDir_eq_ok_iff {dir : Path} :
    ∀ {inputs : List String} {seen : List Path} {outs : List (Option Path)},
      planDir canonicalize dir seen inputs = .ok outs ↔
        ∃ names, List.Forall₂ (fun input name => (Path.parse input).fileName = some name) inputs names ∧
          names.Nodup ∧ (∀ n ∈ names, dir.join n ∉ seen) ∧
          outs = List.zipWith (fun input n => output canonicalize (dir.join n) input) inputs names := by
  intro inputs
  induction inputs with
  | nil =>
    intro seen outs
    refine ⟨fun h => ⟨[], .nil, List.nodup_nil, fun n hn => (by cases hn), ?_⟩, ?_⟩
    · exact (Except.ok.inj h).symm
    · rintro ⟨names, -, -, -, rfl⟩
      rfl
  | cons input rest ih =>
    intro seen outs
    cases hname : (Path.parse input).fileName with
    | none =>
      rw [planDir, hname]
      refine ⟨fun h => (by cases h), ?_⟩
      rintro ⟨names, hall, -⟩
      cases hall with
      | cons h _ => cases hname.symm.trans h
    | some name =>
      rw [planDir, hname]
      by_cases hseen : dir.join name ∈ seen
      · simp only
        rw [if_pos hseen]
        refine ⟨fun h => (by cases h), ?_⟩
        rintro ⟨names, hall, -, hfresh, -⟩
        cases hall with
        | cons h _ =>
          obtain rfl := Option.some.inj (hname.symm.trans h)
          exact absurd hseen (hfresh _ List.mem_cons_self)
      · simp only
        rw [if_neg hseen, bind_eq_ok]
        constructor
        · rintro ⟨outs', hrest, h⟩
          obtain ⟨names, hall, hnodup, hfresh, rfl⟩ := ih.mp hrest
          refine ⟨name :: names, .cons hname hall, List.nodup_cons.mpr ⟨fun hn => ?_, hnodup⟩, ?_,
            (Except.ok.inj h).symm⟩
          · exact hfresh name hn (List.mem_append_right _ List.mem_cons_self)
          · intro n hn
            rcases List.mem_cons.mp hn with rfl | hn
            · exact hseen
            · exact fun h => hfresh n hn (List.mem_append_left _ h)
        · rintro ⟨names, hall, hnodup, hfresh, rfl⟩
          cases hall with
          | @cons _ n _ names h hall =>
            obtain rfl := Option.some.inj (hname.symm.trans h)
            obtain ⟨hn, hnodup⟩ := List.nodup_cons.mp hnodup
            refine ⟨_, ih.mpr ⟨names, hall, hnodup, fun m hm hmem => ?_, rfl⟩, rfl⟩
            rcases List.mem_append.mp hmem with hmem | hmem
            · exact hfresh m (List.mem_cons_of_mem _ hm) hmem
            · obtain ⟨-, rfl⟩ := join_inj (List.mem_singleton.mp hmem)
              exact hn hm

end Plan

/-! ### Isolation -/

/-- No job changes a file that another one looks at. -/
def Isolated (jobs : List Job) : Prop :=
  ∀ (i j : Nat) (J J' : Job), jobs[i]? = some J → jobs[j]? = some J' → i ≠ j →
    ∀ p ∈ J.changes, p ∉ J'.looksAt

theorem mem_changes {J : Job} {p : Path} : p ∈ J.changes ↔ p = J.dest ∨ p = tempPath J.dest := by
  simp [Job.changes]

theorem mem_looksAt {J : Job} {p : Path} :
    p ∈ J.looksAt ↔ p = J.input ∨ p = J.dest ∨ p = tempPath J.dest := by
  simp [Job.looksAt]

theorem isolated_single (J : Job) : Isolated [J] := by
  intro i j K K' hK hK' hij
  have hi := (List.getElem?_eq_some_iff.mp hK).1
  have hj := (List.getElem?_eq_some_iff.mp hK').1
  simp only [List.length_singleton] at hi hj
  omega

theorem isolated_pair {J J' : Job} (h : ∀ p ∈ J.changes, p ∉ J'.looksAt)
    (h' : ∀ p ∈ J'.changes, p ∉ J.looksAt) : Isolated [J, J'] := by
  have hcases : ∀ (i : Nat) (K : Job), [J, J'][i]? = some K → i = 0 ∧ K = J ∨ i = 1 ∧ K = J' := by
    intro i K hK
    rcases i with _ | _ | i
    · exact Or.inl ⟨rfl, (Option.some.inj hK).symm⟩
    · exact Or.inr ⟨rfl, (Option.some.inj hK).symm⟩
    · cases hK
  intro i j K K' hK hK' hij
  obtain ⟨rfl, rfl⟩ | ⟨rfl, rfl⟩ := hcases i K hK
  · obtain ⟨rfl, rfl⟩ | ⟨rfl, rfl⟩ := hcases j K' hK'
    · exact absurd rfl hij
    · exact h
  · obtain ⟨rfl, rfl⟩ | ⟨rfl, rfl⟩ := hcases j K' hK'
    · exact h'
    · exact absurd rfl hij

/-- If an APK is read from where another job writes only to be signed in place, it is the temporary
files and the destinations that must not meet. -/
theorem isolated_iff_dests {jobs : List Job}
    (hin : 1 < jobs.length → ∀ J ∈ jobs, ∀ J' ∈ jobs, J'.input ∈ J.changes → J'.dest = J'.input) :
    Isolated jobs ↔ (jobs.map fun J => tempPath J.dest).Nodup ∧
      ∀ p ∈ jobs.map Job.dest, tempPath p ∉ jobs.map Job.dest := by
  constructor
  · intro h
    refine ⟨List.nodup_iff_getElem?_ne_getElem?.mpr fun i j hij hj heq => ?_, fun p hp htemp => ?_⟩
    · rw [List.length_map] at hj
      have hi : i < jobs.length := Nat.lt_trans hij hj
      rw [List.getElem?_map, List.getElem?_map, List.getElem?_eq_getElem hi,
        List.getElem?_eq_getElem hj] at heq
      refine h i j jobs[i] jobs[j] (List.getElem?_eq_getElem hi) (List.getElem?_eq_getElem hj)
        (Nat.ne_of_lt hij) _ (mem_changes.mpr (Or.inr rfl)) (mem_looksAt.mpr (Or.inr (Or.inr ?_)))
      exact Option.some.inj heq
    · obtain ⟨J, hJ, rfl⟩ := List.mem_map.mp hp
      obtain ⟨J', hJ', hdest⟩ := List.mem_map.mp htemp
      obtain ⟨i, hi⟩ := List.getElem?_of_mem hJ
      obtain ⟨j, hj⟩ := List.getElem?_of_mem hJ'
      refine h i j J J' hi hj ?_ (tempPath J.dest) (mem_changes.mpr (Or.inr rfl))
        (mem_looksAt.mpr (Or.inr (Or.inl hdest.symm)))
      rintro rfl
      obtain rfl := Option.some.inj (hi.symm.trans hj)
      exact tempPath_ne _ hdest.symm
  · rintro ⟨hnodup, htemp⟩ i j J J' hi hj hij p hp hlook
    have hJ := List.mem_of_getElem? hi
    have hJ' := List.mem_of_getElem? hj
    have hne : tempPath J.dest ≠ tempPath J'.dest := by
      intro heq
      have hget : (jobs.map fun J => tempPath J.dest)[i]? = (jobs.map fun J => tempPath J.dest)[j]? := by
        rw [List.getElem?_map, List.getElem?_map, hi, hj, Option.map_some, Option.map_some, heq]
      exact hij ((List.getElem?_inj (by
        rw [List.length_map]
        exact (List.getElem?_eq_some_iff.mp hi).1) hnodup).mp hget)
    have hdest : p ≠ J'.dest := by
      rintro rfl
      rcases mem_changes.mp hp with heq | heq
      · exact hne (by rw [heq])
      · exact htemp _ (List.mem_map_of_mem hJ) (heq ▸ List.mem_map_of_mem hJ')
    rcases mem_looksAt.mp hlook with rfl | rfl | rfl
    · refine hdest (hin ?_ J hJ J' hJ' hp).symm
      have := (List.getElem?_eq_some_iff.mp hi).1
      have := (List.getElem?_eq_some_iff.mp hj).1
      omega
    · exact hdest rfl
    · rcases mem_changes.mp hp with heq | heq
      · exact htemp _ (List.mem_map_of_mem hJ') (heq ▸ List.mem_map_of_mem hJ)
      · exact hne heq.symm

section Plan

variable {canonicalize : Path → Option Path} {createDirAll : Path → Option IoError}
  {locate : Path → Path} {a : Args} {outs : List (Option Path)} {key : Option Signer} {threads : Nat}

/-- The inputs have file names, and no two the same. -/
def Args.Named (inputs : List String) : Prop :=
  ∃ names, List.Forall₂ (fun input name => (Path.parse input).fileName = some name) inputs names ∧
    names.Nodup

/-- With `--out-dir` the files are told apart by their names. -/
theorem named_of_planOutputs (h : planOutputs canonicalize createDirAll a = .ok outs)
    (hout : a.out = none) (hdir : a.outDir ≠ none) : Args.Named a.inputs := by
  rw [planOutputs, hout] at h
  cases hd : a.outDir with
  | none => exact absurd hd hdir
  | some dir =>
    rw [hd] at h
    simp only at h
    split at h
    · cases h
    · obtain ⟨names, hall, hnodup, -⟩ := planDir_eq_ok_iff.mp h
      exact ⟨names, hall, hnodup⟩

/-- **What is planned**: every APK is read from where it is and goes where it is to go. -/
theorem planJobs_eq (hc : Located canonicalize locate)
    (h : planOutputs canonicalize createDirAll a = .ok outs) :
    (planJobs locate a outs key threads).map (fun J => (J.input, J.dest))
      = a.inputs.map fun input => (locate (Path.parse input), locate (a.dest input)) := by
  rw [planJobs]
  rw [planOutputs] at h
  cases hout : a.out with
  | some out =>
    rw [hout] at h
    obtain rfl := Except.ok.inj h
    obtain ⟨input, hinput⟩ : ∃ input, a.inputs = [input] := by
      refine List.length_eq_one_iff.mp (Nat.le_antisymm (a.out_single (by simp [hout])) ?_)
      exact List.length_pos_iff.mpr a.inputs_ne
    have hhead : a.inputs.head a.inputs_ne = input := by simp [hinput]
    rw [hhead, hinput]
    simp [Job.dest, getD_output hc, Args.dest, hout]
  | none =>
    rw [hout] at h
    cases hdir : a.outDir with
    | none =>
      rw [hdir] at h
      obtain rfl := Except.ok.inj h
      have hdest : ∀ input, a.dest input = Path.parse input := fun input => by
        rw [Args.dest, hout, hdir]
      generalize a.inputs = inputs
      induction inputs with
      | nil => rfl
      | cons input rest ih =>
        rw [List.length_cons, List.replicate_succ, List.zipWith_cons_cons, List.map_cons, ih,
          List.map_cons, hdest]
        rfl
    | some dir =>
      have hdest : ∀ input name, (Path.parse input).fileName = some name →
          a.dest input = (Path.parse dir).join name := fun input name hname => by
        rw [Args.dest, hout, hdir, hname]
        rfl
      rw [hdir] at h
      simp only at h
      split at h
      · cases h
      · obtain ⟨names, hall, -, -, rfl⟩ := planDir_eq_ok_iff.mp h
        clear h
        generalize a.inputs = inputs at hall ⊢
        induction hall with
        | nil => rfl
        | cons hname _ ih =>
          rw [List.zipWith_cons_cons, List.zipWith_cons_cons, List.map_cons, ih, List.map_cons,
            hdest _ _ hname, Job.dest, getD_output hc]

theorem dest_inPlace (hout : a.out = none) (hdir : a.outDir = none) (input : String) :
    a.dest input = Path.parse input := by
  rw [Args.dest, hout, hdir]

theorem dest_outDir {dir input : String} {name : Bytes} (hout : a.out = none)
    (hdir : a.outDir = some dir) (hname : (Path.parse input).fileName = some name) :
    a.dest input = (Path.parse dir).join name := by
  rw [Args.dest, hout, hdir, hname]
  rfl

theorem fileName_of_named {inputs : List String} (h : Args.Named inputs) {input : String}
    (hmem : input ∈ inputs) : ∃ name, (Path.parse input).fileName = some name := by
  obtain ⟨names, hall, -⟩ := h
  induction hall with
  | nil => cases hmem
  | cons hname _ ih =>
    rcases List.mem_cons.mp hmem with rfl | hmem
    · exact ⟨_, hname⟩
    · exact ih hmem

theorem tempPath_locate (hc : Located canonicalize locate) {dir : Path} {name : Bytes}
    (hname : TextName name) :
    tempPath (locate (dir.join name)) = (locate dir).join (tempName name) := by
  rw [hc.join, tempPath_join _ hname]

/-- **Files with different places have different temporary files**, if they are named by text. -/
theorem locate_eq_of_tempPath (hc : Located canonicalize locate) {s s' : String}
    (hs : (Path.parse s).fileName ≠ none) (hs' : (Path.parse s').fileName ≠ none)
    (h : tempPath (locate (Path.parse s)) = tempPath (locate (Path.parse s'))) :
    locate (Path.parse s) = locate (Path.parse s') := by
  obtain ⟨name, hname⟩ := Option.ne_none_iff_exists'.mp hs
  obtain ⟨name', hname'⟩ := Option.ne_none_iff_exists'.mp hs'
  obtain ⟨dir, hp⟩ := fileName_eq_some hname
  obtain ⟨dir', hp'⟩ := fileName_eq_some hname'
  rw [hp, hp', tempPath_locate hc (textName_of_fileName hname),
    tempPath_locate hc (textName_of_fileName hname')] at h
  obtain ⟨hdir, hsame⟩ := join_inj h
  rw [hp, hp', hc.join, hc.join, hdir, tempName_inj hsame]

theorem nodup_temps_iff (hc : Located canonicalize locate) {inputs : List String}
    (hnames : ∀ s ∈ inputs, (Path.parse s).fileName ≠ none) :
    (inputs.map fun s => tempPath (locate (Path.parse s))).Nodup ↔
      (inputs.map fun s => locate (Path.parse s)).Nodup := by
  have hmap : (inputs.map fun s => tempPath (locate (Path.parse s)))
      = (inputs.map fun s => locate (Path.parse s)).map tempPath := by
    rw [List.map_map]
    rfl
  constructor
  · intro h
    rw [hmap] at h
    exact List.Nodup.of_map _ h
  · intro h
    rw [hmap]
    refine List.Nodup.map_on ?_ h
    intro p hp q hq heq
    obtain ⟨s, hs, rfl⟩ := List.mem_map.mp hp
    obtain ⟨s', hs', rfl⟩ := List.mem_map.mp hq
    exact locate_eq_of_tempPath hc (hnames s hs) (hnames s' hs') heq

theorem nodup_dest_temps_iff (hc : Located canonicalize locate)
    (h : planOutputs canonicalize createDirAll a = .ok outs) :
    (a.inputs.map fun s => tempPath (locate (a.dest s))).Nodup ↔
      (a.out = none → a.outDir = none →
        (a.inputs.map fun s => tempPath (locate (Path.parse s))).Nodup) := by
  cases hout : a.out with
  | some out =>
    refine iff_of_true ?_ fun h => by cases h
    have hlen := a.out_single (by simp [hout])
    refine List.nodup_iff_getElem?_ne_getElem?.mpr fun i j hij hj => ?_
    rw [List.length_map] at hj
    omega
  | none =>
    cases hdir : a.outDir with
    | none =>
      have hmap : (a.inputs.map fun s => tempPath (locate (a.dest s)))
          = a.inputs.map fun s => tempPath (locate (Path.parse s)) :=
        List.map_congr_left fun input _ => by rw [dest_inPlace hout hdir input]
      rw [hmap]
      exact ⟨fun h _ _ => h, fun h => h rfl rfl⟩
    | some dir =>
      refine iff_of_true ?_ fun _ h => by cases h
      obtain ⟨names, hall, hnodup⟩ := named_of_planOutputs h hout (by simp [hdir])
      have hmap : (a.inputs.map fun s => tempPath (locate (a.dest s)))
          = names.map fun name => (locate (Path.parse dir)).join (tempName name) := by
        clear hnodup h
        generalize a.inputs = inputs at hall ⊢
        induction hall with
        | nil => rfl
        | cons hname _ ih =>
          rw [List.map_cons, List.map_cons, ih, dest_outDir hout hdir hname,
            tempPath_locate hc (textName_of_fileName hname)]
      rw [hmap]
      exact hnodup.map fun _ _ heq => tempName_inj (join_inj heq).2

theorem dest_eq_of_mem_changes (hc : Located canonicalize locate)
    (h : planOutputs canonicalize createDirAll a = .ok outs)
    (hlen : 1 < a.inputs.length) {x y : String} (hx : x ∈ a.inputs) (hy : y ∈ a.inputs)
    (hin : locate (Path.parse y) = locate (a.dest x) ∨
      locate (Path.parse y) = tempPath (locate (a.dest x))) :
    locate (a.dest y) = locate (Path.parse y) := by
  have hout : a.out = none := by
    by_contra hout
    exact absurd (a.out_single hout) (by omega)
  cases hdir : a.outDir with
  | none => rw [dest_inPlace hout hdir y]
  | some dir =>
    have hnamed := named_of_planOutputs h hout (by simp [hdir])
    obtain ⟨name, hname⟩ := fileName_of_named hnamed hx
    obtain ⟨name', hname'⟩ := fileName_of_named hnamed hy
    obtain ⟨parent, hparent⟩ := fileName_eq_some hname'
    rw [dest_outDir hout hdir hname'] at *
    have hjoin : ∃ n, locate (Path.parse y) = (locate (Path.parse dir)).join n := by
      rw [dest_outDir hout hdir hname, tempPath_locate hc (textName_of_fileName hname), hc.join] at hin
      rcases hin with hin | hin
      · exact ⟨_, hin⟩
      · exact ⟨_, hin⟩
    obtain ⟨n, hn⟩ := hjoin
    rw [hparent, hc.join] at hn ⊢
    obtain ⟨hlocate, -⟩ := join_inj hn
    rw [hc.join, hlocate]

/-- What the plan does not look at: an APK that is signed in place and named twice, in whatever ways,
and one that is named like the temporary file of another. -/
structure Args.Clear (a : Args) (locate : Path → Path) : Prop where
  inPlace : a.out = none → a.outDir = none →
    (a.inputs.map fun s => tempPath (locate (Path.parse s))).Nodup
  temps : ∀ x ∈ a.inputs, ∀ y ∈ a.inputs, tempPath (locate (a.dest x)) ≠ locate (a.dest y)

theorem isolated_planJobs_iff (hc : Located canonicalize locate)
    (h : planOutputs canonicalize createDirAll a = .ok outs) :
    Isolated (planJobs locate a outs key threads) ↔ a.Clear locate := by
  have hplan := @planJobs_eq _ _ _ _ _ key threads hc h
  have hdests : (planJobs locate a outs key threads).map Job.dest
      = a.inputs.map fun s => locate (a.dest s) := by
    have := congrArg (List.map Prod.snd) hplan
    rwa [List.map_map, List.map_map] at this
  have htemps : ((planJobs locate a outs key threads).map fun J => tempPath J.dest)
      = a.inputs.map fun s => tempPath (locate (a.dest s)) := by
    have := congrArg (List.map tempPath) hdests
    rwa [List.map_map, List.map_map] at this
  have hjob : ∀ J ∈ planJobs locate a outs key threads, ∃ input ∈ a.inputs,
      J.input = locate (Path.parse input) ∧ J.dest = locate (a.dest input) := by
    intro J hJ
    obtain ⟨input, hmem, heq⟩ := List.mem_map.mp (hplan ▸ List.mem_map_of_mem hJ)
    exact ⟨input, hmem, (congrArg Prod.fst heq).symm, (congrArg Prod.snd heq).symm⟩
  have hlen : (planJobs locate a outs key threads).length = a.inputs.length := by
    simpa using congrArg List.length hplan
  rw [isolated_iff_dests, hdests, htemps, nodup_dest_temps_iff hc h]
  · refine ⟨fun hp => ⟨hp.1, fun x hx y hy heq => ?_⟩, fun hp => ⟨hp.inPlace, fun p hmem htemp => ?_⟩⟩
    · exact hp.2 _ (List.mem_map_of_mem hx) (heq ▸ List.mem_map_of_mem hy)
    · obtain ⟨x, hx, rfl⟩ := List.mem_map.mp hmem
      obtain ⟨y, hy, heq⟩ := List.mem_map.mp htemp
      exact hp.temps x hx y hy heq.symm
  · intro h1 J hJ J' hJ' hin
    obtain ⟨x, hx, -, hdest⟩ := hjob J hJ
    obtain ⟨y, hy, hinput', hdest'⟩ := hjob J' hJ'
    rw [mem_changes, hdest, hinput'] at hin
    rw [hdest', hinput']
    exact dest_eq_of_mem_changes hc h (hlen ▸ h1) hx hy hin

/-- **What is planned is isolated**, unless an APK that is signed in place is named twice, in whatever
ways, or the temporary file of one APK is the destination of another: these the plan does not refuse. -/
theorem isolated_iff (hc : Located canonicalize locate)
    (h : planOutputs canonicalize createDirAll a = .ok outs) :
    (Isolated (planJobs locate a outs key threads) ↔
      (a.out = none → a.outDir = none →
        (a.inputs.map fun s => tempPath (locate (Path.parse s))).Nodup) ∧
      ∀ x ∈ a.inputs, ∀ y ∈ a.inputs, tempPath (locate (a.dest x)) ≠ locate (a.dest y)) ∧
    ((∀ s ∈ a.inputs, (Path.parse s).fileName ≠ none) →
      ((a.inputs.map fun s => tempPath (locate (Path.parse s))).Nodup ↔
        (a.inputs.map fun s => locate (Path.parse s)).Nodup)) :=
  ⟨(isolated_planJobs_iff hc h).trans ⟨fun hp => ⟨hp.inPlace, hp.temps⟩, fun hp => ⟨hp.1, hp.2⟩⟩,
    nodup_temps_iff hc⟩

end Plan

/-- A tree without symbolic links, seen from its root; `..` is not followed. -/
def fromRoot (p : Path) : Path :=
  if p.head? = some .root then p.filter fun c => decide (c ≠ .cur)
  else .root :: p.filter fun c => decide (c ≠ .cur)

def canonicalizeFromRoot (p : Path) : Option Path :=
  if .parent ∈ p then none else some (fromRoot p)

theorem located_fromRoot : Located canonicalizeFromRoot fromRoot where
  canonical p x h := by
    rw [canonicalizeFromRoot] at h
    split at h
    · cases h
    · exact Option.some.inj h
  join dir name := by
    cases dir with
    | nil => rfl
    | cons c dir =>
      rw [Path.join, Path.join, fromRoot, fromRoot, List.head?_append, List.head?_cons,
        Option.some_or]
      split
      · rw [List.filter_append]
        rfl
      · rw [List.filter_append]
        rfl

/-- Two APKs, signed in place or into a directory. -/
def twoArgs (first second : String) (outDir : Option String) : Args where
  inputs := [first, second]
  out := none
  outDir := outDir
  keysrc := .files "key.pk8" "cert.pem"
  v1 := false
  jobs := none
  threads := none
  timing := false
  opts := ⟨true, true, .check, 16384⟩
  inputs_ne := by simp
  out_single := by simp
  out_exclusive := Or.inl rfl

/-- Two APKs of different directories are isolated; an APK that is named twice in place is not, nor one
that is named like a temporary file. -/
theorem isolated_iff_two :
    (∃ outs, planOutputs canonicalizeFromRoot (fun _ => none) (twoArgs "a/x.apk" "./b/y.apk" (some "out"))
        = .ok outs ∧
      Isolated (planJobs fromRoot (twoArgs "a/x.apk" "./b/y.apk" (some "out")) outs none 1)) ∧
    (∃ outs, planOutputs canonicalizeFromRoot (fun _ => none) (twoArgs "x.apk" "./x.apk" none) = .ok outs ∧
      ¬ Isolated (planJobs fromRoot (twoArgs "x.apk" "./x.apk" none) outs none 1)) ∧
    ∃ outs, planOutputs canonicalizeFromRoot (fun _ => none)
        (twoArgs "x.apk" "b/.x.apk.fastsigner-tmp" (some ".")) = .ok outs ∧
      ¬ Isolated (planJobs fromRoot (twoArgs "x.apk" "b/.x.apk.fastsigner-tmp" (some ".")) outs none 1) := by
  have hc := located_fromRoot
  have hplan : ∀ first second outDir, (planOutputs canonicalizeFromRoot (fun _ => none)
      (twoArgs first second outDir)).isOk = true →
      ∃ outs, planOutputs canonicalizeFromRoot (fun _ => none) (twoArgs first second outDir) = .ok outs := by
    intro first second outDir h
    cases hp : planOutputs canonicalizeFromRoot (fun _ => none) (twoArgs first second outDir) with
    | ok outs => exact ⟨outs, rfl⟩
    | error e =>
      rw [hp] at h
      cases h
  obtain ⟨outs, hfine⟩ := hplan "a/x.apk" "./b/y.apk" (some "out") rfl
  obtain ⟨outs', htwice⟩ := hplan "x.apk" "./x.apk" none rfl
  obtain ⟨outs'', hodd⟩ := hplan "x.apk" "b/.x.apk.fastsigner-tmp" (some ".") rfl
  refine ⟨⟨outs, hfine, (isolated_iff hc hfine).1.mpr ⟨fun _ h => (by cases h), by decide⟩⟩,
    ⟨outs', htwice, fun h => ?_⟩, outs'', hodd, fun h => ?_⟩
  · exact absurd (((isolated_iff hc htwice).1.mp h).1 rfl rfl) (by decide)
  · exact absurd ((isolated_iff hc hodd).1.mp h).2 (by decide)

end FastSigner.Sign
