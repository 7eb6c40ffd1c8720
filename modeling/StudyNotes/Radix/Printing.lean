import StudyNotes.Radix.ByteRuns
import StudyNotes.Radix.Enumeration
import StudyNotes.Words.Outline

namespace StudyNotes.Radix.Printing

open Heap.Program Heap.Triple Heap.Bytes Heap.Mirror Heap.Placement Words.Outline
open KeyTree KeyTreeCases KeyTreeCount KeyTreeShape Context MatchSpec InsertStep PlacedShape Refine Runs Enumeration
open Layout InPlaceEdits ByteMatch ByteInsert ByteErase ByteRuns
open Program (RadixTree)

def space : UInt8 := 32

def newline : UInt8 := 10

/-- "`-> " -/
def arrow : List UInt8 := [96, 45, 62, 32]

/-- " [*]" -/
def star : List UInt8 := [32, 91, 42, 93]

/-- "[root]" -/
def rootLine : List UInt8 := [91, 114, 111, 111, 116, 93]

section Program

open ByteNode

/-- What a call of visit_child adds to the output. The fuel bounds the depth of the tree. -/
def visitChild : Nat → Addr → Nat → List UInt8 → ByteM (List UInt8)
  | 0, _, _, _ => fail .diverged
  | fuel + 1, childNode, level, out => do
      assert (level > 0)
      let out := out ++ List.replicate (4 * (level - 1) + level) space
      let out := out ++ arrow
      let length ← prefixLength childNode
      let out ← (List.range length).foldlM (fun out i => do
        let c ← byteAt childNode (prefixOffset i)
        return out ++ [c]) out
      let refs ← refcount childNode
      let out := if refs > 0 then out ++ star else out
      let out := out ++ [newline]
      let count ← edgecount childNode
      (List.range count).foldlM (fun out i => do
        let child ← nodeAt childNode i
        visitChild fuel child (level + 1) out) out

/-- What print writes to the standard output. -/
def print (t : RadixTree) : ByteM (List UInt8) := do
  let bound ← liveBlocks
  let out := rootLine ++ [newline]
  let count ← edgecount t.root
  (List.range count).foldlM (fun out i => do
    let child ← nodeAt t.root i
    visitChild bound child 1 out) out

end Program

section Text

variable {α : Type}

/-- One line of the output, for a node at the given depth below the root's children. -/
def renderLine (e : Entry UInt8) : List UInt8 :=
  List.replicate (5 * e.depth + 1) space ++ (arrow ++ (e.text ++ if e.marked then star else []))

/-- The line without its indentation and its arrow, with the mark taken off. -/
def readLine (line : List UInt8) : Entry UInt8 :=
  let depth := (line.takeWhile (· = space)).length / 5
  let body := (line.dropWhile (· = space)).drop arrow.length
  if body.drop (body.length - star.length) = star then ⟨depth, body.take (body.length - star.length), true⟩
  else ⟨depth, body, false⟩

/-- The keys that a printed tree shows. -/
def readKeys (out : List UInt8) : List (List UInt8) := spelled [] ((cutLines newline out).tail.map readLine)

/-- Bytes that keep the lines and the marks apart. -/
def Plain (s : List UInt8) : Prop := newline ∉ s ∧ space ∉ s

mutual

/-- The entries of a subtree in the order of the traversal. -/
def outline : Nat → Trie α → List (Entry UInt8)
  | depth, .node _ rc p es => ⟨depth, p, decide (rc > 0)⟩ :: edgesOutline (depth + 1) es

def edgesOutline : Nat → Edges α → List (Entry UInt8)
  | _, [] => []
  | depth, (_, t) :: es => outline depth t ++ edgesOutline depth es

end

def render (es : List (Entry UInt8)) : List UInt8 := es.flatMap (fun e => renderLine e ++ [newline])

theorem render_append (es es' : List (Entry UInt8)) : render (es ++ es') = render es ++ render es' :=
  List.flatMap_append

theorem render_cons (e : Entry UInt8) (es : List (Entry UInt8)) : render (e :: es) = renderLine e ++ [newline] ++ render es :=
  List.flatMap_cons

theorem edgesOutline_append (depth : Nat) (es es' : Edges α) :
    edgesOutline depth (es ++ es') = edgesOutline depth es ++ edgesOutline depth es' := by
  induction es with
  | nil => simp [edgesOutline]
  | cons e es ih =>
      obtain ⟨b, t⟩ := e
      rw [List.cons_append, edgesOutline, edgesOutline, ih, List.append_assoc]

theorem edgesOutline_take {es : Edges α} {i : Nat} {e : UInt8 × Trie α} (he : es[i]? = some e) (depth : Nat) :
    edgesOutline depth (es.take (i + 1)) = edgesOutline depth (es.take i) ++ outline depth e.2 := by
  rw [List.take_add_one, he, Option.toList_some, edgesOutline_append, edgesOutline, edgesOutline, List.append_nil]

theorem mem_edgesOutline {x : Entry UInt8} {depth : Nat} {es : Edges α} :
    x ∈ edgesOutline depth es ↔ ∃ e ∈ es, x ∈ outline depth e.2 := by
  induction es with
  | nil => simp [edgesOutline]
  | cons e es ih =>
      obtain ⟨b, t⟩ := e
      simp [edgesOutline, ih]

/-- A line of plain text is read back. -/
theorem readLine_renderLine {e : Entry UInt8} (h : Plain e.text) : readLine (renderLine e) = e := by
  obtain ⟨depth, text, marked⟩ := e
  have harrow (rest : List UInt8) : (List.replicate (5 * depth + 1) space ++ (arrow ++ rest)).takeWhile (· = space) =
      List.replicate (5 * depth + 1) space := by
    rw [List.takeWhile_append_of_pos (by simp)]
    simp [arrow, space]
  have hdrop (rest : List UInt8) : (List.replicate (5 * depth + 1) space ++ (arrow ++ rest)).dropWhile (· = space) =
      arrow ++ rest := by
    rw [List.dropWhile_append_of_pos (by simp)]
    simp [arrow, space]
  have hdepth : (5 * depth + 1) / 5 = depth := by omega
  rw [readLine, renderLine]
  dsimp only
  rw [harrow, hdrop, List.length_replicate, hdepth, List.drop_left]
  cases marked with
  | true =>
      have hlen : (text ++ star).length - star.length = text.length := by simp
      simp only [if_true]
      rw [hlen, List.drop_left, if_pos rfl, List.take_left]
  | false =>
      have hnone : text.drop (text.length - star.length) ≠ star := by
        intro hs
        have hmem : space ∈ text.drop (text.length - star.length) := by
          rw [hs]
          simp [star, space]
        exact h.2 (List.mem_of_mem_drop hmem)
      simp only [Bool.false_eq_true, if_false, List.append_nil]
      rw [if_neg hnone]

theorem newline_notMem_renderLine {e : Entry UInt8} (h : Plain e.text) : newline ∉ renderLine e := by
  have hspace : newline ≠ space := by decide
  have harrow : newline ∉ arrow := by decide
  have hstar : newline ∉ star := by decide
  rw [renderLine, List.mem_append, List.mem_append, List.mem_append]
  rintro (hm | hm | hm | hm)
  · exact hspace (List.eq_of_mem_replicate hm)
  · exact harrow hm
  · exact h.1 hm
  · split_ifs at hm
    · exact hstar hm
    · simp at hm

theorem cutLines_render {es : List (Entry UInt8)} (h : ∀ e ∈ es, Plain e.text) :
    (cutLines newline (render es)).map readLine = es := by
  induction es with
  | nil => rfl
  | cons e es ih =>
      have he := h e (by simp)
      rw [render_cons, List.append_assoc, List.singleton_append, cutLines_line _ (newline_notMem_renderLine he),
        List.map_cons, readLine_renderLine he, ih (fun e' he' => h e' (by simp [he']))]

/-- Reading the entries of a subtree gives its keys behind the path to it, and leaves
that path for the entries that follow. -/
theorem spelled_outline (t : Trie α) (path : List (List UInt8)) (depth : Nat) (hd : depth ≤ path.length) :
    ∃ path', path'.take depth = path.take depth ∧ depth ≤ path'.length ∧ ∀ rest,
      spelled path (outline depth t ++ rest) =
        (keyList t).map ((path.take depth).flatten ++ ·) ++ spelled path' rest := by
  induction t using tree_induct generalizing path depth with
  | h a rc p es ih =>
      have hedges (es' : Edges α) (hsub : ∀ e ∈ es', e ∈ es) (q : List (List UInt8)) (hq : depth + 1 ≤ q.length) :
          ∃ q', q'.take (depth + 1) = q.take (depth + 1) ∧ depth + 1 ≤ q'.length ∧ ∀ rest,
            spelled q (edgesOutline (depth + 1) es' ++ rest) =
              (edgesKeyList es').map ((q.take (depth + 1)).flatten ++ ·) ++ spelled q' rest := by
        induction es' generalizing q with
        | nil => exact ⟨q, rfl, hq, fun rest => by simp [edgesOutline, edgesKeyList]⟩
        | cons e es' ihes =>
            obtain ⟨b, t⟩ := e
            obtain ⟨q₁, hq₁, hlen₁, hs₁⟩ := ih (b, t) (hsub _ (by simp)) q (depth + 1) hq
            obtain ⟨q₂, hq₂, hlen₂, hs₂⟩ := ihes (fun e he => hsub e (by simp [he])) q₁ hlen₁
            refine ⟨q₂, hq₂.trans hq₁, hlen₂, fun rest => ?_⟩
            rw [edgesOutline, List.append_assoc, hs₁, hs₂, hq₁, edgesKeyList, List.map_append, List.append_assoc]
      have hlen : (path.take depth).length = depth := List.length_take_of_le hd
      have hfull : (path.take depth ++ [p]).take (depth + 1) = path.take depth ++ [p] :=
        List.take_of_length_le (by rw [List.length_append, hlen, List.length_singleton])
      obtain ⟨q', hq', hlen', hs'⟩ := hedges es (fun _ he => he) (path.take depth ++ [p])
        (by rw [List.length_append, hlen, List.length_singleton])
      refine ⟨q', ?_, by omega, fun rest => ?_⟩
      · have hcut := congrArg (List.take depth) hq'
        rw [hfull, List.take_take, Nat.min_eq_left (Nat.le_succ depth), List.take_left' hlen] at hcut
        exact hcut
      · have hkeys : (keyList (.node a rc p es)).map ((path.take depth).flatten ++ ·) =
            (if rc > 0 then [(path.take depth ++ [p]).flatten] else []) ++
              (edgesKeyList es).map ((path.take depth ++ [p]).flatten ++ ·) := by
          rw [keyList, List.map_map, List.map_append]
          congr 1
          · split_ifs <;> simp
          · simp [Function.comp_def]
        rw [outline, List.cons_append, spelled_cons, hs', hfull, hkeys, List.append_assoc]
        simp only [decide_eq_true_eq]

theorem spelled_edgesOutline (es : Edges α) : spelled [] (edgesOutline 0 es) = edgesKeyList es := by
  suffices h : ∀ (path : List (List UInt8)), spelled path (edgesOutline 0 es) = edgesKeyList es from h []
  induction es with
  | nil => exact fun path => rfl
  | cons e es ih =>
      obtain ⟨b, t⟩ := e
      intro path
      obtain ⟨path', -, -, hs⟩ := spelled_outline t path 0 (Nat.zero_le _)
      rw [edgesOutline, hs, ih, edgesKeyList]
      simp

end Text

section Output

variable {S : Multiset (Addr × List UInt8)} {a : Addr} {rc : UInt32} {p : List UInt8} {es : Edges Addr}

/-- The loop over the children of a node. -/
theorem gives_children (fuel depth : Nat) (hb : (a, layout ⟨rc, p, slots es⟩) ∈ S) (hfits : Fits ⟨rc, p, slots es⟩)
    (hlow : ∀ e ∈ es, e.2.tag < 2 ^ 64)
    (hvisit : ∀ e ∈ es, ∀ out, Gives (Holds S) (visitChild fuel e.2.tag (depth + 1) out) (out ++ render (outline depth e.2)))
    (out : List UInt8) :
    Gives (Holds S) ((List.range es.length).foldlM (fun out i => do
        let child ← ByteNode.nodeAt a i
        visitChild fuel child (depth + 1) out) out) (out ++ render (edgesOutline depth es)) := by
  -- the lines of the children before i have been added
  have hloop := gives_range (P := Holds S)
    (f := fun out i => ByteNode.nodeAt a i >>= fun child => visitChild fuel child (depth + 1) out)
    (fun i => out ++ render (edgesOutline depth (es.take i))) es.length (fun i hi => ?_)
  · simpa [edgesOutline, render] using hloop
  · have hmem := List.getElem_mem hi
    have hslots : slots es = slots (es.take i) ++ (es[i].1, es[i].2.tag) :: slots (es.drop (i + 1)) := by
      rw [← slots_cons, ← slots_append]
      simp
    have hlen : (slots (es.take i)).length = i := by rw [slots_length, List.length_take_of_le hi.le]
    rw [hslots] at hb hfits
    have hchild := gives_nodeAt hb hfits (hlow _ hmem)
    rw [hlen] at hchild
    refine gives_bind hchild ?_
    rw [edgesOutline_take (List.getElem?_eq_getElem hi), render_append, ← List.append_assoc]
    exact hvisit _ hmem _

theorem gives_printed_bytes (hb : (a, layout ⟨rc, p, slots es⟩) ∈ S) (out : List UInt8) :
    Gives (Holds S) ((List.range p.length).foldlM (fun out i => do
        let c ← ByteNode.byteAt a (ByteNode.prefixOffset i)
        return out ++ [c]) out) (out ++ p) := by
  have hloop := gives_range (P := Holds S)
    (f := fun out i => ByteNode.byteAt a (ByteNode.prefixOffset i) >>= fun c => pure (out ++ [c]))
    (fun i => out ++ p.take i) p.length (fun i hi => ?_)
  · simpa using hloop
  · have hcut : p = p.take i ++ p[i] :: p.drop (i + 1) := by simp
    have hlen : (p.take i).length = i := List.length_take_of_le hi.le
    rw [hcut] at hb
    have hbyte := gives_prefixByte hb
    rw [hlen] at hbyte
    refine gives_bind hbyte ?_
    rw [List.append_assoc, List.take_append_getElem]
    exact gives_pure _

/-- The line of a node, in the pieces in which it is written. -/
theorem renderLine_pieces (depth : Nat) (rc : UInt32) (p out : List UInt8) :
    (if rc.toNat > 0 then out ++ List.replicate (5 * depth + 1) space ++ arrow ++ p ++ star
      else out ++ List.replicate (5 * depth + 1) space ++ arrow ++ p) ++ [newline] =
        out ++ (renderLine ⟨depth, p, decide (rc > 0)⟩ ++ [newline]) := by
  have hpos : rc.toNat > 0 ↔ rc > 0 := by
    rw [gt_iff_lt, Nat.pos_iff_ne_zero, ne_eq, toNat_eq_zero, pos_iff]
  simp only [hpos, renderLine, decide_eq_true_eq]
  split_ifs <;> simp

/-- On the bytes of a subtree a call adds the lines of its outline. -/
theorem gives_visitChild (fuel : Nat) {t : Trie Addr} (hfuel : height t ≤ fuel) (hsound : AllNodes Sound t)
    (hlow : ∀ x ∈ addresses t, x < 2 ^ 64) (hS : ∀ c ∈ cells t, (c.1, layout c.2) ∈ S) (depth : Nat) (out : List UInt8) :
    Gives (Holds S) (visitChild fuel t.tag (depth + 1) out) (out ++ render (outline depth t)) := by
  induction fuel generalizing t depth out with
  | zero =>
      obtain ⟨a, rc, p, es⟩ := t
      simp [height] at hfuel
  | succ fuel ih =>
      obtain ⟨a, rc, p, es⟩ := t
      rw [height] at hfuel
      have hfits : Fits ⟨rc, p, slots es⟩ := fits_of_sound hsound.here
      have hb : (a, layout ⟨rc, p, slots es⟩) ∈ S := hS (a, _) (by rw [cells]; exact Multiset.mem_cons_self _ _)
      have hcells (e : UInt8 × Trie Addr) (he : e ∈ es) (c : Addr × Node.Block) (hc : c ∈ cells e.2) :
          c ∈ cells (.node a rc p es) := by
        rw [cells]
        exact Multiset.mem_cons_of_mem (mem_edgesCells he hc)
      have hlow' (e : UInt8 × Trie Addr) (he : e ∈ es) (x : Addr) (hx : x ∈ addresses e.2) : x < 2 ^ 64 := by
        obtain ⟨c, hc, rfl⟩ := Multiset.mem_map.mp hx
        exact hlow _ (Multiset.mem_map_of_mem Prod.fst (hcells e he c hc))
      have hspaces : 4 * (depth + 1 - 1) + (depth + 1) = 5 * depth + 1 := by omega
      rw [visitChild, Trie.tag_node, hspaces]
      refine gives_bind (gives_assert (Nat.succ_pos depth)) (gives_bind (gives_prefixLength hb hfits) ?_)
      refine gives_bind (gives_printed_bytes hb _) (gives_bind (gives_refcount hb) (gives_bind (gives_edgecount hb hfits) ?_))
      dsimp only
      have hlines : out ++ render (outline depth (.node a rc p es)) =
          out ++ (renderLine ⟨depth, p, decide (rc > 0)⟩ ++ [newline]) ++ render (edgesOutline (depth + 1) es) := by
        rw [outline, render_cons, List.append_assoc out]
      rw [renderLine_pieces, slots_length, hlines]
      refine gives_children fuel (depth + 1) hb hfits (fun e he => ?_) (fun e he out => ?_) _
      · exact hlow' e he _ (Multiset.mem_map_of_mem Prod.fst (mem_cells e.2))
      · have hheight : height e.2 ≤ edgesHeight es := Traversal.height_child he
        exact ih (by omega) (hsound.child e he) (hlow' e he) (fun c hc => hS c (hcells e he c hc)) _ _

theorem gives_print {T : Trie Addr} (hsound : AllNodes Sound T) (hlow : ∀ x ∈ addresses T, x < 2 ^ 64) (w : UInt64) :
    Gives (Holds (laid (cells T))) (print ⟨T.tag, w⟩)
      (rootLine ++ newline :: render (edgesOutline 0 T.edges)) := by
  have hheight := Traversal.height_le_card T
  obtain ⟨a, rc, p, es⟩ := T
  have hfits : Fits ⟨rc, p, slots es⟩ := fits_of_sound hsound.here
  have hb : (a, layout ⟨rc, p, slots es⟩) ∈ laid (cells (.node a rc p es)) := mem_laid (mem_cells _)
  have hcells (e : UInt8 × Trie Addr) (he : e ∈ es) (c : Addr × Node.Block) (hc : c ∈ cells e.2) :
      c ∈ cells (.node a rc p es) := by
    rw [cells]
    exact Multiset.mem_cons_of_mem (mem_edgesCells he hc)
  have hlow' (e : UInt8 × Trie Addr) (he : e ∈ es) (x : Addr) (hx : x ∈ addresses e.2) : x < 2 ^ 64 := by
    obtain ⟨c, hc, rfl⟩ := Multiset.mem_map.mp hx
    exact hlow _ (Multiset.mem_map_of_mem Prod.fst (hcells e he c hc))
  rw [print, Trie.tag_node, Trie.edges_node, ← List.singleton_append, ← List.append_assoc]
  refine gives_bind (gives_liveBlocks _) (gives_bind (gives_edgecount hb hfits) ?_)
  dsimp only
  rw [slots_length]
  refine gives_children _ 0 hb hfits (fun e he => ?_) (fun e he out => ?_) _
  · exact hlow' e he _ (Multiset.mem_map_of_mem Prod.fst (mem_cells e.2))
  · have hle : height e.2 ≤ edgesHeight es := Traversal.height_child he
    rw [height] at hheight
    refine gives_visitChild _ ?_ (hsound.child e he) (hlow' e he) (fun c hc => mem_laid (hcells e he c hc)) _ _
    rw [laid, Multiset.card_map]
    omega

end Output

theorem plain_closed : PrefixClosed Plain := by
  rintro s s' ⟨hn, hs⟩
  exact ⟨fun h => hn (List.mem_append.mpr (Or.inl h)), fun h => hs (List.mem_append.mpr (Or.inl h))⟩

/-- The nodes of a tree of plain strings have plain prefixes. -/
theorem plain_outline {α : Type} {t : Trie α} {s : List UInt8} (h : Within Plain s t) (depth : Nat) :
    ∀ e ∈ outline depth t, Plain e.text := by
  induction t using tree_induct generalizing s depth with
  | h a rc p es ih =>
      intro x hx
      rw [outline, List.mem_cons] at hx
      rcases hx with rfl | hx
      · have hp := h.here
        exact ⟨fun hm => hp.1 (List.mem_append.mpr (Or.inr hm)), fun hm => hp.2 (List.mem_append.mpr (Or.inr hm))⟩
      · obtain ⟨e, he, hx⟩ := mem_edgesOutline.mp hx
        exact ih e he (h.child e he) (depth + 1) x hx

/-- Only plain keys are inserted. -/
def PlainKeys (ops : List Op) : Prop := ∀ k, Op.insert k ∈ ops → Plain k.bytes

theorem within_run {ops : List Op} (h : PlainKeys ops) : Within Plain [] (abstractRun ops).tree := by
  induction ops using List.reverseRecOn with
  | nil => exact .node (by simp [Plain]) (by simp)
  | append_singleton ops op ih =>
      have hs := ih (fun k hk => h k (List.mem_append.mpr (Or.inl hk)))
      rw [abstractRun_concat]
      cases op with
      | insert k =>
          exact within_inserts plain_closed (insertKey_inserts (abstractRun ops).tree k.bytes) hs (h k (by simp))
      | erase k =>
          rcases erase_cases (root_run ops).1 k with ⟨-, he⟩ | ⟨-, hr⟩
          · rw [Abstract.step, he]
            exact hs
          · exact within_removes hr hs

/-- The printed tree shows the keys that were inserted and not erased, each of them
once, if no key has a blank or a line end in it. -/
theorem print_shows_keys (A : ByteAllocator) (room : Nat) (hA : Confined A.toAllocator (2 ^ 64) room) (ops : List Op)
    (h : Limits ops) (hplain : PlainKeys ops) (hroom : 2 * ops.length + 1 ≤ room) :
    ∃ t m out, ByteRuns.run A ops emptyMem = .ok (t, m) ∧ print t m = .ok (out, m) ∧ (readKeys out).Nodup ∧
      ∀ k, k ∈ readKeys out ↔ k ∈ ledger ops := by
  obtain ⟨T, m, hrun, hT, hcanon, hm, hlow, -⟩ := ByteRuns.run_reaches hA h.short hroom
  have hprint := gives_print (canon_sound hcanon) (addresses_low hm hlow) (abstractRun ops).size m hm
  have hwithin : Within Plain [] T := within_of_forget (by rw [hT]; exact within_run hplain)
  have hroot : T.bytes = [] ∧ T.refcount = 0 := by
    have h := root_run ops
    rwa [← hT, forget_bytes, forget_refcount] at h
  have hkeys : readKeys (rootLine ++ newline :: render (edgesOutline 0 T.edges)) = keyList T := by
    have hlines : ∀ e ∈ edgesOutline 0 T.edges, Plain e.text := by
      intro x hx
      obtain ⟨e, he, hxe⟩ := mem_edgesOutline.mp hx
      obtain ⟨a, rc, p, es⟩ := T
      exact plain_outline (hwithin.child e he) 0 x hxe
    rw [readKeys, cutLines_line _ (by decide), List.tail_cons, cutLines_render hlines, spelled_edgesOutline]
    obtain ⟨a, rc, p, es⟩ := T
    obtain ⟨rfl, rfl⟩ : p = [] ∧ rc = 0 := hroot
    simp [keyList]
  refine ⟨_, m, _, hrun, hprint, ?_, fun k => ?_⟩
  · rw [hkeys]
    exact keyList_nodup hcanon.shaped
  · have hshaped : Shaped (abstractRun ops).tree := (canon_run h.short).shaped
    rw [hkeys, mem_keyList, mem_keys_iff hcanon.shaped, ← countOf_forget, hT, ← mem_keys_iff hshaped, (agrees_run h).keys]

theorem print_shows_keys_demo :
    ∃ t m out, ByteRuns.run lowestBytes demo emptyMem = .ok (t, m) ∧ print t m = .ok (out, m) ∧ (readKeys out).Nodup ∧
      ∀ k, k ∈ readKeys out ↔ k ∈ ledger demo := by
  refine print_shows_keys lowestBytes 7 (lowest_confined (by decide)) demo demo_limits (fun k hk => ?_) (by decide)
  simp only [demo, List.mem_cons, Op.insert.injEq, reduceCtorEq, List.not_mem_nil, or_false] at hk
  rcases hk with rfl | rfl <;> exact ⟨by decide, by decide⟩

/-- With blanks in the keys two trees can print the same: a node "a" that holds a key
and a node "a [*]" that holds none. -/
example : render (edgesOutline 0 [(97, .node () 1 [97] [(98, .node () 1 [98] []), (99, .node () 1 [99] [])])]) =
    render (edgesOutline 0 [(97, .node () 0 [97, 32, 91, 42, 93] [(98, .node () 1 [98] []), (99, .node () 1 [99] [])])]) :=
  rfl

end StudyNotes.Radix.Printing
