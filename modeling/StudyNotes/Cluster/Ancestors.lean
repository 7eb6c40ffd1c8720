import StudyNotes.Words.Collapse
import StudyNotes.Cluster.StrUtils
import StudyNotes.Cluster.Creation

namespace StudyNotes.Cluster.Ancestors

open Systems.Interaction Words.Leftmost Words.Collapse Program Lifecycle Creation
open StrUtils (split_cuts filter_kept_true filter_kept_false)

section parts

theorem splitFrom_append {p : List Char} (hp : '/' ∉ p) (part w : List Char) :
    splitFrom part (p ++ w) = splitFrom (part ++ p) w := by
  induction p generalizing part with
  | nil => rw [List.nil_append, List.append_nil]
  | cons c p ih =>
      rw [List.mem_cons, not_or] at hp
      rw [List.cons_append, splitFrom, if_neg (Ne.symm hp.1), ih hp.2, List.append_assoc, List.singleton_append]

theorem splitFrom_cuts {s : List Char} {parts : List (List Char)} (h : Cuts ['/'] s parts) :
    splitFrom [] s = (parts.filter (· ≠ [])).map String.ofList := by
  have hnode (p : List Char) :
      (if p = [] then [] else [String.ofList p]) = ([p].filter (· ≠ [])).map String.ofList := by
    cases p <;> rfl
  induction h with
  | last hclear =>
      rw [List.singleton_infix_iff] at hclear
      have hsplit := splitFrom_append hclear [] []
      rwa [List.append_nil, List.nil_append, splitFrom, hnode] at hsplit
  | cut hcut _ ih =>
      obtain ⟨rfl, hp⟩ := dropInfix?_letter.1 hcut
      rw [splitFrom_append hp, List.nil_append, splitFrom, if_pos rfl, ih, hnode, ← List.map_append, ← List.filter_append,
        List.singleton_append]

end parts

/-- The beginnings of the path, node by node, when it is written with one slash before each
node. -/
def ancestors (path : String) : List String := (stops '/' (collapse '/' ('/' :: path.toList))).map String.ofList

/-- The path that the loop builds from the first nodes. -/
def joined (nodes : List (List Char)) : List Char := nodes.flatMap ('/' :: ·)

theorem ancestors_cuts {path : String} {parts : List (List Char)} (h : Cuts ['/'] path.toList parts) :
    ancestors path = ((parts.filter (· ≠ [])).inits.tail.map joined).map String.ofList := by
  have hparts : ∀ p ∈ parts.filter (· ≠ []), '/' ∉ p ∧ p ≠ [] := by
    intro p hp
    rw [List.mem_filter, decide_eq_true_eq] at hp
    have hclear := (h.leftmost (List.cons_ne_nil _ _)).clear p hp.1
    rw [List.singleton_infix_iff] at hclear
    exact ⟨hclear, hp.2⟩
  rw [ancestors, collapse_cuts h, stops_joined hparts]
  rfl

/-- The paths that zoo_exists is asked for. -/
def asked (log : List (Sigma Reply)) : List String :=
  log.filterMap fun
    | ⟨.zooExists _ path, _⟩ => some path
    | _ => none

def Watch : Sigma Reply → Prop
  | ⟨.zooGetChildren _ _, _⟩ => True
  | _ => False

/-- The calls of a loop that asks for the given paths in their order, and for all of them when
no creation is refused. -/
structure Visits (paths : List String) (log : List (Sigma Reply)) : Prop where
  begins : asked log <+: paths
  all : (∀ e ∈ log, ¬Refused e) → asked log = paths
  noWatch : ∀ e ∈ log, ¬Watch e

theorem Visits.step {q : String} {paths : List String} {calls log : List (Sigma Reply)} (hcalls : asked calls = [q])
    (hwatch : ∀ e ∈ calls, ¬Watch e) (h : Visits paths log) : Visits (q :: paths) (calls ++ log) := by
  have hasked : asked (calls ++ log) = q :: asked log := by
    rw [asked, List.filterMap_append]
    exact congrArg (· ++ asked log) hcalls
  refine ⟨?_, fun hnone => ?_, fun e he => ?_⟩
  · rw [hasked]
    exact List.prefix_cons_inj q |>.2 h.begins
  · rw [hasked, h.all fun e he => hnone e (List.mem_append_right _ he)]
  · exact (List.mem_append.1 he).elim (hwatch e) (h.noWatch e)

/-- The paths that start with a given one and go on along the parts. -/
def onward (pre : List Char) (parts : List (List Char)) : List String :=
  (parts.inits.tail.map fun ps => pre ++ joined ps).map String.ofList

theorem onward_cons (pre p : List Char) (parts : List (List Char)) :
    onward pre (p :: parts) = String.ofList (pre ++ '/' :: p) :: onward (pre ++ '/' :: p) parts := by
  have hinits : parts.inits = [] :: parts.inits.tail := by cases parts <;> simp
  rw [onward, List.inits_cons, List.tail_cons, hinits]
  simp [onward, joined, Function.comp_def]

theorem createPath_visits (pre : List Char) (res : Int) (parts : List (List Char)) (w : World) :
    anyReply.wp (createPath (String.ofList pre) res (parts.map String.ofList)) (fun _ w' => w'.1 = w.1 ∧
      ∃ log, w'.2 = w.2 ++ log ∧ Visits (onward pre parts) log) w := by
  induction parts generalizing pre res w with
  | nil =>
      refine ⟨rfl, [], (List.append_nil _).symm, ?_⟩
      exact ⟨List.prefix_refl _, fun _ => rfl, by simp⟩
  | cons p parts ih =>
      have hpath : String.ofList pre ++ "/" ++ String.ofList p = String.ofList (pre ++ '/' :: p) := by
        rw [← String.toList_inj]
        simp
      -- the rest of the loop, after the calls for this node
      have hrest (res : Int) (w' : World) (calls : List (Sigma Reply)) (hw' : w' = (w.1, w.2 ++ calls))
          (hasked : asked calls = [String.ofList (pre ++ '/' :: p)]) (hwatch : ∀ e ∈ calls, ¬Watch e) :
          anyReply.wp (createPath (String.ofList (pre ++ '/' :: p)) res (parts.map String.ofList)) (fun _ w'' =>
            w''.1 = w.1 ∧ ∃ log, w''.2 = w.2 ++ log ∧ Visits (onward pre (p :: parts)) log) w' := by
        refine wp_mono (ih (pre ++ '/' :: p) res w') ?_
        rintro _ w'' ⟨hm, log, hlog, hvisits⟩
        subst hw'
        refine ⟨hm, calls ++ log, by rw [hlog, List.append_assoc], ?_⟩
        rw [onward_cons]
        exact hvisits.step hasked hwatch
      rw [List.map_cons, createPath]
      rw [hpath]
      simp only [load, zooExists, zooCreate, request, wp_bind, wp_load, wp_zooExists, wp_zooCreate, wp_done, wp_ite,
        wp_pure]
      refine fun res => ⟨fun _ res' => ⟨fun hres' => ⟨trivial, _, List.append_assoc _ _ _, ?_⟩, fun _ => ?_⟩, fun _ => ?_⟩
      · rw [onward_cons]
        refine ⟨List.prefix_append [_] _, fun hnone => absurd hres' ?_, by simp [Watch]⟩
        exact hnone ⟨.zooCreate _ _ _ _, res'⟩ (List.mem_append_right _ (List.mem_singleton_self _))
      · exact hrest res' _ [⟨.zooExists _ _, res⟩, ⟨.zooCreate _ _ _ _, res'⟩] (congrArg _ (List.append_assoc _ _ _)) rfl
          (by simp [Watch])
      · exact hrest res _ [⟨.zooExists _ _, res⟩] rfl rfl (by simp [Watch])

theorem createOwn_log (path node : String) (w : World) :
    anyReply.wp (createOwn path node) (fun _ w' =>
      ∃ r own, w'.2 = w.2 ++ ⟨.zooGetChildren (w.1 .zkhandlePtr) (w.1 .path), r⟩ :: own) w := by
  simp only [createOwn, load, zooGetChildren, zooExists, zooCreate, request, wp_bind, wp_load, wp_zooGetChildren,
    wp_zooExists, wp_zooCreate, wp_done, wp_ite, wp_pure]
  exact fun r res => ⟨fun _ res' => ⟨r, _, (List.append_assoc _ _ _).trans (List.append_assoc _ _ _)⟩,
    fun _ => ⟨r, _, List.append_assoc _ _ _⟩⟩

/-- The calls of createNode: the path is asked for, then the loop visits its ancestors if the path
does not exist, then the watch is set. -/
def NodeCalls (m : Manager) (path : String) (log : List (Sigma Reply)) : Prop :=
  ∃ res loop r own, log = ⟨.zooExists (m .zkhandlePtr) path, res⟩ ::
      (loop ++ ⟨.zooGetChildren (m .zkhandlePtr) (m .path), r⟩ :: own) ∧
    (res = znonode → Visits (ancestors path) loop) ∧ (res ≠ znonode → loop = [])

theorem createNode_visits (path node : String) (m : Manager) (hm : (m .zkhandlePtr).isSome) (hpath : path ≠ "")
    (hnode : node ≠ "") :
    anyReply.wp (createNode path node) (fun _ w' => NodeCalls m path w'.2) (m, []) := by
  obtain ⟨parts, hcuts⟩ := exists_cuts (List.cons_ne_nil '/' []) path.toList
  simp only [createNode, load, zooExists, request, wp_bind, wp_load, wp_zooExists, wp_done, wp_ite, wp_pure]
  refine ⟨fun _ res => ⟨fun hres => ?_, fun hres => ?_⟩, fun h => absurd ⟨hm, hpath, hnode⟩ h⟩
  · rw [Program.split, splitFrom_cuts hcuts]
    refine wp_mono (createPath_visits [] res _ _) ?_
    rintro _ w' ⟨hw', loop, hloop, hvisits⟩
    refine wp_mono (createOwn_log path node w') ?_
    rintro _ w'' ⟨r, own, hown⟩
    refine ⟨res, loop, r, own, ?_, fun _ => ?_, fun h => absurd hres h⟩
    · rw [hown, hw', hloop]
      rfl
    · rw [ancestors_cuts hcuts]
      exact hvisits
  · refine wp_mono (createOwn_log path node _) ?_
    rintro _ w'' ⟨r, own, hown⟩
    exact ⟨res, [], r, own, hown, fun h => absurd h hres, fun _ => rfl⟩

/-- Split without empty parts is Split with them, less these parts. So the loop of createNode, which
goes over the parts of the path between its slashes, visits the ancestors of the path. -/
theorem split_drops_empty :
    (∀ (α : Type) [DecidableEq α] (s d : List α) (rounds : Nat), s.length < rounds → ∃ parts,
      StrUtils.split rounds s d true = some parts ∧ StrUtils.split rounds s d false = some (parts.filter (· ≠ []))) ∧
    (∀ (path : String) (rounds : Nat), path.toList.length < rounds →
      StrUtils.split rounds path.toList ['/'] false = some ((Program.split path).map String.toList)) ∧
    ∀ (m m' : Manager) (path node : String) (res : Int) (log : List (Sigma Reply)), (m .zkhandlePtr).isSome →
      path ≠ "" → node ≠ "" → Exec anyReply (m, []) (createNode path node) res (m', log) → NodeCalls m path log := by
  refine ⟨fun α _ s d rounds hrounds => ?_, fun path rounds hrounds => ?_, fun m m' path node res log hm hpath hnode h => ?_⟩
  · by_cases hd : d = []
    · subst hd
      refine ⟨[s], by simp [StrUtils.split], ?_⟩
      cases s <;> simp [StrUtils.split]
    · obtain ⟨parts, hcuts⟩ := exists_cuts hd s
      refine ⟨parts, ?_, ?_⟩
      · rw [split_cuts hd hcuts hrounds, filter_kept_true]
      · rw [split_cuts hd hcuts hrounds, filter_kept_false]
  · obtain ⟨parts, hcuts⟩ := exists_cuts (List.cons_ne_nil '/' []) path.toList
    rw [split_cuts (List.cons_ne_nil '/' []) hcuts hrounds, filter_kept_false, Program.split, splitFrom_cuts hcuts,
      List.map_map]
    simp [Function.comp_def]
  · exact h.of_wp (createNode_visits path node m hm hpath hnode)

def nested : Manager := opened Manager.init "zk" "//a//b/" "n" 10 1

/-- A library in which nothing exists and every creation succeeds. -/
def empty (w : World) : (q : Request) → Reply q × World
  | .zooExists h path => (znonode, w.1, w.2 ++ [⟨.zooExists h path, znonode⟩])
  | q => obliging [] w q

theorem empty_reply (w : World) (q : Request) : anyReply.reply w q (empty w q).1 (empty w q).2 := by
  cases q with
  | zooExists h path => exact ⟨rfl, rfl⟩
  | _ => exact obliging_reply [] w _

theorem split_drops_empty_nested :
    ∃ res log, Exec anyReply (nested, []) (createNode "//a//b/" "n") res (nested, log) ∧
      NodeCalls nested "//a//b/" log ∧ ancestors "//a//b/" = ["/a", "/a/b"] ∧
      (∃ parts, StrUtils.split 8 "//a//b/".toList ['/'] true = some parts ∧
        StrUtils.split 8 "//a//b/".toList ['/'] false = some (parts.filter (· ≠ []))) ∧
      StrUtils.split 8 "//a//b/".toList ['/'] false = some ((Program.split "//a//b/").map String.toList) := by
  have hexec : Exec anyReply (nested, []) (createNode "//a//b/" "n") _ (nested, _) := Exec.of_run empty_reply rfl
  exact ⟨_, _, hexec, split_drops_empty.2.2 _ _ _ _ _ _ rfl (by decide) (by decide) hexec, by decide,
    split_drops_empty.1 _ _ _ _ (by decide), split_drops_empty.2.1 _ _ (by decide)⟩

end StudyNotes.Cluster.Ancestors
