import GraphMpc.Graph
import GraphMpc.Library.InputStream

namespace GraphMpc

open InputStream

namespace Graph

inductive Flow where
  | ret (g : Graph)
  | next (g : Graph) (s : InputStream)

def isNodeLetter (c : Char) : Bool := c = 'n' || c = 'N' || c = 'v' || c = 'V'

def isEdgeLetter (c : Char) : Bool := c = 'e' || c = 'E'

-- uninit: what the uninitialised variables src and dst hold
def readEntry (uninit : Ring × Ring) (type : Char) (g : Graph) (file : InputStream) :
    Except String Flow :=
  if isNodeLetter type then
    let (id, file) := file.getUnsigned uninit.1
    if file.fail then .error "Missing node ID after node entry"
    else
      match file.getChar with
      | (none, _) => .ok (.ret (g.addListEntry id id 1 0))
      | (some next, file) =>
        let file := file.putback next
        if next.isDigit then
          let (data, file) := file.getUnsigned id
          .ok (.next (g.addListEntry id id 1 data) file)
        else .ok (.next (g.addListEntry id id 1 0) file)
  else if isEdgeLetter type then
    let (src, file) := file.getUnsigned uninit.1
    let (dst, file) := file.getUnsigned uninit.2
    .ok (.next (g.addListEntry src dst 0 0) file)
  else .error "Unexpected subgraph file format"

theorem readEntry_length {uninit : Ring × Ring} {type : Char} {g g' : Graph}
    {s s' : InputStream} (h : readEntry uninit type g s = .ok (.next g' s')) :
    s'.rest.length ≤ s.rest.length := by
  unfold readEntry at h
  split at h
  · dsimp only at h
    have hid := s.getUnsigned_length uninit.1
    split at h
    · simp at h
    · split at h
      · simp at h
      · rename_i next s2 hc
        have hn := getChar_length hc
        split at h
        · simp only [Except.ok.injEq, Flow.next.injEq] at h
          have hd := (s2.putback next).getUnsigned_length (s.getUnsigned uninit.1).1
          rw [← h.2]
          simp only [putback, List.length_cons] at hd ⊢
          omega
        · simp only [Except.ok.injEq, Flow.next.injEq] at h
          rw [← h.2]
          simp only [putback, List.length_cons]
          omega
  · split at h
    · simp only [Except.ok.injEq, Flow.next.injEq] at h
      rw [← h.2]
      exact (getUnsigned_length _ _).trans (getUnsigned_length _ _)
    · simp at h

def readEntries (uninit : Ring × Ring) (g : Graph) (file : InputStream) : Except String Graph :=
  match _h : file.getChar with
  | (none, file) => if file.eof then .ok g else .error "Unexpected end of subgraph file."
  | (some type, file) =>
    match _hr : readEntry uninit type g file with
    | .error e => .error e
    | .ok (.ret g) => .ok g
    | .ok (.next g file) => readEntries uninit g file
termination_by file.rest.length
decreasing_by exact (readEntry_length _hr).trans_lt (getChar_length _h)

-- file: the characters of the file, if it can be opened
def parseSimplifiedFormat (uninit : Ring × Ring) (filename : String) (file : Option (List Char)) :
    Except String Graph :=
  match file with
  | none => .error ("Error: Could not open graph file " ++ filename)
  | some text => readEntries uninit {} { rest := text }

def follow (uninit : Ring × Ring) : Except String Flow → Except String Graph
  | .error e => .error e
  | .ok (.ret g) => .ok g
  | .ok (.next g file) => readEntries uninit g file

variable {uninit : Ring × Ring} {g g' : Graph} {sp sp' text rest n m : List Char} {c d : Char}
  {x y : Ring}

theorem readEntries_cons (hsp : Blank sp) (hc : isSpace c = false) :
    readEntries uninit g { rest := sp ++ c :: rest } =
      follow uninit (readEntry uninit c g { rest := rest }) := by
  unfold readEntries
  rw [getChar_cons hsp hc]
  simp only
  split
  · rename_i he
    rw [he]
    rfl
  · rename_i he
    rw [he]
    rfl
  · rename_i he
    rw [he]
    rfl

theorem readEntries_blank (hsp : Blank sp) : readEntries uninit g { rest := sp } = .ok g := by
  unfold readEntries
  rw [getChar_blank hsp]
  rfl

theorem readEntries_stopped {s : InputStream} (hs : s.good = false) :
    readEntries uninit g s =
      if s.eof then .ok g else .error "Unexpected end of subgraph file." := by
  unfold readEntries
  rw [getChar_stopped hs]

theorem readEntries_eof :
    readEntries uninit g { rest := rest, eof := rest.isEmpty } =
      readEntries uninit g { rest := rest } := by
  obtain _ | ⟨c, t⟩ := rest
  · rw [readEntries_stopped (by rfl), readEntries_blank (by simp [Blank])]
    rfl
  · rfl

theorem readEntries_skip (hsp : Blank sp) (hc : isSpace c = false) :
    readEntries uninit g { rest := sp ++ c :: rest } =
      readEntries uninit g { rest := c :: rest } := by
  have hnil : Blank [] := by simp [Blank]
  rw [readEntries_cons hsp hc, ← List.nil_append (c :: rest), readEntries_cons hnil hc]

theorem isSpace_of_letter (hc : isNodeLetter c = true ∨ isEdgeLetter c = true) :
    isSpace c = false := by
  simp only [isNodeLetter, isEdgeLetter, Bool.or_eq_true, decide_eq_true_eq] at hc
  rcases hc with (((rfl | rfl) | rfl) | rfl) | (rfl | rfl) <;> decide

theorem isDigit_of_letter (hc : isNodeLetter c = true ∨ isEdgeLetter c = true) :
    c.isDigit = false := by
  simp only [isNodeLetter, isEdgeLetter, Bool.or_eq_true, decide_eq_true_eq] at hc
  rcases hc with (((rfl | rfl) | rfl) | rfl) | (rfl | rfl) <;> decide

theorem not_node_of_edge (hc : isEdgeLetter c = true) : isNodeLetter c = false := by
  simp only [isEdgeLetter, Bool.or_eq_true, decide_eq_true_eq] at hc
  rcases hc with rfl | rfl <;> decide

def Gap (rest : List Char) : Prop := ∀ c ∈ rest.head?, isSpace c = true

theorem Gap.noDigit (h : Gap rest) : NoDigit rest := by
  intro c hc
  by_contra hd
  have h1 := isSpace_of_isDigit (by simpa using hd)
  rw [h c hc] at h1
  exact absurd h1 (by decide)

theorem Gap.of_blank {v : List Char} (hv : Blank v) (hne : v ≠ []) : Gap (v ++ rest) := by
  obtain ⟨c, t, rfl⟩ := List.exists_cons_of_ne_nil hne
  intro d hd
  simp only [List.cons_append, List.head?_cons, Option.mem_some] at hd
  exact hd ▸ hv c (List.mem_cons_self ..)

def Begins (rest : List Char) : Prop :=
  Blank rest ∨ ∃ sp c t, rest = sp ++ c :: t ∧ Blank sp ∧ isSpace c = false ∧ c.isDigit = false

theorem read_node (hc : isNodeLetter c = true) (hsp : Blank sp) (hsp' : Blank sp')
    (hn : Numeral 32 n x) (hr : NoDigit rest) (hb : Begins rest) :
    readEntries uninit g { rest := sp ++ c :: (sp' ++ (n ++ rest)) } =
      readEntries uninit (g.addListEntry x x 1 0) { rest := rest } := by
  rw [readEntries_cons hsp (isSpace_of_letter (Or.inl hc))]
  simp only [readEntry, hc, if_true, getUnsigned_numeral _ hsp' hn hr, Bool.false_eq_true,
    if_false]
  rcases hb with hblank | ⟨sp2, d, t, rfl, hsp2, hd, hdig⟩
  · rw [readEntries_blank hblank]
    obtain _ | ⟨d, t⟩ := rest
    · rw [getChar_stopped (by rfl)]
      rfl
    · rw [show (d :: t).isEmpty = false from rfl, getChar_blank hblank]
      rfl
  · have he : (sp2 ++ d :: t).isEmpty = false := by cases sp2 <;> rfl
    rw [he, getChar_cons hsp2 hd]
    simp only [hdig, Bool.false_eq_true, if_false]
    rw [readEntries_skip hsp2 hd]
    rfl

theorem readEntry_state (hc : isNodeLetter c = true) (hsp' : Blank sp') (hn : Numeral 32 n x)
    {v ds : List Char} (hv : Blank v) (hvne : v ≠ []) (hds : Digits ds) :
    readEntry uninit c g { rest := sp' ++ (n ++ (v ++ (ds ++ rest))) } =
      let (data, file) := getUnsigned x { rest := ds ++ rest }
      .ok (.next (g.addListEntry x x 1 data) file) := by
  obtain ⟨d, t, hdt⟩ : ∃ d t, ds = d :: t := List.exists_cons_of_ne_nil hds.nonempty
  have hd : d.isDigit = true := hds.digit d (by simp [hdt])
  have hnd : NoDigit (v ++ (ds ++ rest)) := (Gap.of_blank hv hvne).noDigit
  have he : (v ++ (ds ++ rest)).isEmpty = false := by simp [hvne]
  simp only [readEntry, hc, if_true, getUnsigned_numeral _ hsp' hn hnd, Bool.false_eq_true,
    if_false]
  rw [he, hdt, List.cons_append, getChar_cons hv (isSpace_of_isDigit hd)]
  simp only [hd, if_true, putback]

theorem read_state (hc : isNodeLetter c = true) (hsp : Blank sp) (hsp' : Blank sp')
    (hn : Numeral 32 n x) {v ds : List Char} (hv : Blank v) (hvne : v ≠ []) (hds : Digits ds)
    (hlt : value ds < 2 ^ 32) (hr : NoDigit rest) :
    readEntries uninit g { rest := sp ++ c :: (sp' ++ (n ++ (v ++ (ds ++ rest)))) } =
      readEntries uninit (g.addListEntry x x 1 (BitVec.ofNat 32 (value ds))) { rest := rest } := by
  have hnil : Blank [] := by simp [Blank]
  have hget := getUnsigned_numeral (w := 32) x hnil (Numeral.plain ds hds hlt) hr
  rw [List.nil_append] at hget
  rw [readEntries_cons hsp (isSpace_of_letter (Or.inl hc)), readEntry_state hc hsp' hn hv hvne hds,
    hget]
  exact readEntries_eof

theorem read_edge (hc : isEdgeLetter c = true) (hsp : Blank sp) (hsp' : Blank sp')
    (hn : Numeral 32 n x) {v : List Char} (hv : Blank v) (hm : Numeral 32 m y)
    (hnd : NoDigit (v ++ (m ++ rest))) (hr : NoDigit rest) :
    readEntries uninit g { rest := sp ++ c :: (sp' ++ (n ++ (v ++ (m ++ rest)))) } =
      readEntries uninit (g.addListEntry x y 0 0) { rest := rest } := by
  have hne : m ++ rest ≠ [] := by
    obtain ⟨sg, ds, rfl, -, hds, -⟩ := hm.signed
    simp [hds.nonempty]
  have he : (v ++ (m ++ rest)).isEmpty = false := by simp [hne]
  rw [readEntries_cons hsp (isSpace_of_letter (Or.inr hc))]
  simp only [readEntry, not_node_of_edge hc, hc, if_true, Bool.false_eq_true, if_false,
    getUnsigned_numeral _ hsp' hn hnd]
  rw [he, getUnsigned_numeral _ hv hm hr]
  exact readEntries_eof

inductive FileEntry where
  | node (id state : Ring)
  | edge (source target : Ring)
  deriving DecidableEq, Repr

namespace FileEntry

def src : FileEntry → Ring
  | node id _ => id
  | edge source _ => source

def dst : FileEntry → Ring
  | node id _ => id
  | edge _ target => target

def isV : FileEntry → Ring
  | node .. => 1
  | edge .. => 0

def data : FileEntry → Ring
  | node _ state => state
  | edge .. => 0

def isNode : FileEntry → Bool
  | node .. => true
  | edge .. => false

end FileEntry

def listed (es : List FileEntry) : Graph where
  src := es.map FileEntry.src
  dst := es.map FileEntry.dst
  isV := es.map FileEntry.isV
  data := es.map FileEntry.data
  size := es.length
  nodes := es.countP FileEntry.isNode

structure Decimal (ds : List Char) (x : Ring) : Prop where
  digits : Digits ds
  denotes : value ds = x.toNat

inductive Line : FileEntry → List Char → Prop
  | node (c : Char) (sp ds : List Char) (id : Ring) : isNodeLetter c = true → Blank sp →
      Decimal ds id → Line (.node id 0) (c :: (sp ++ ds))
  | state (c : Char) (sp ds v ds' : List Char) (id state : Ring) : isNodeLetter c = true →
      Blank sp → Decimal ds id → Blank v → v ≠ [] → Decimal ds' state →
      Line (.node id state) (c :: (sp ++ (ds ++ (v ++ ds'))))
  | edge (c : Char) (sp ds v ds' : List Char) (source target : Ring) : isEdgeLetter c = true →
      Blank sp → Decimal ds source → Blank v → v ≠ [] → Decimal ds' target →
      Line (.edge source target) (c :: (sp ++ (ds ++ (v ++ ds'))))

-- the input format: blanks stand between any two tokens and may be missing after a letter
inductive Written : List FileEntry → List Char → Prop
  | nil (sp : List Char) : Blank sp → Written [] sp
  | cons (e : FileEntry) (es : List FileEntry) (sp line rest : List Char) : Blank sp →
      Line e line → Gap rest → Written es rest → Written (e :: es) (sp ++ (line ++ rest))

theorem Decimal.numeral {ds : List Char} (h : Decimal ds x) : Numeral 32 ds x := by
  have hx : x = BitVec.ofNat 32 (value ds) := by
    rw [h.denotes, BitVec.ofNat_toNat, BitVec.setWidth_eq]
  rw [hx]
  exact .plain ds h.digits (h.denotes ▸ x.isLt)

theorem Line.letter {e : FileEntry} {line : List Char} (h : Line e line) :
    ∃ c t, line = c :: t ∧ (isNodeLetter c = true ∨ isEdgeLetter c = true) := by
  cases h with
  | node c _ _ _ hc => exact ⟨c, _, rfl, Or.inl hc⟩
  | state c _ _ _ _ _ _ hc => exact ⟨c, _, rfl, Or.inl hc⟩
  | edge c _ _ _ _ _ _ hc => exact ⟨c, _, rfl, Or.inr hc⟩

theorem Written.begins {es : List FileEntry} (h : Written es rest) : Begins rest := by
  cases h with
  | nil sp hsp => exact Or.inl hsp
  | cons e es sp line rest hsp hl hg hw =>
    obtain ⟨c, t, rfl, hc⟩ := hl.letter
    exact Or.inr ⟨sp, c, t ++ rest, rfl, hsp, isSpace_of_letter hc, isDigit_of_letter hc⟩

def appendEntry (g : Graph) (e : FileEntry) : Graph := g.addListEntry e.src e.dst e.isV e.data

theorem read_line {e : FileEntry} {line : List Char} (hsp : Blank sp) (hl : Line e line)
    (hg : Gap rest) (hb : Begins rest) :
    readEntries uninit g { rest := sp ++ (line ++ rest) } =
      readEntries uninit (g.appendEntry e) { rest := rest } := by
  cases hl with
  | node c sp' ds id hc hsp' hds =>
    have h : readEntries uninit g _ = _ :=
      read_node hc hsp hsp' hds.numeral hg.noDigit hb
    simpa [appendEntry, FileEntry.src, FileEntry.dst, FileEntry.isV, FileEntry.data] using h
  | state c sp' ds v ds' id state hc hsp' hds hv hvne hds' =>
    have h : readEntries uninit g _ = _ :=
      read_state hc hsp hsp' hds.numeral hv hvne hds'.digits (hds'.denotes ▸ state.isLt) hg.noDigit
    rw [hds'.denotes, BitVec.ofNat_toNat, BitVec.setWidth_eq] at h
    simpa [appendEntry, FileEntry.src, FileEntry.dst, FileEntry.isV, FileEntry.data] using h
  | edge c sp' ds v ds' source target hc hsp' hds hv hvne hds' =>
    have h : readEntries uninit g _ = _ :=
      read_edge hc hsp hsp' hds.numeral hv hds'.numeral (Gap.of_blank hv hvne).noDigit hg.noDigit
    simpa [appendEntry, FileEntry.src, FileEntry.dst, FileEntry.isV, FileEntry.data] using h

theorem read_written {es : List FileEntry} (h : Written es text) (g : Graph) :
    readEntries uninit g { rest := text } = .ok (es.foldl appendEntry g) := by
  induction h generalizing g with
  | nil sp hsp => exact readEntries_blank hsp
  | cons e es sp line rest hsp hl hg hw ih =>
    rw [read_line hsp hl hg hw.begins, ih]
    rfl

theorem foldl_appendEntry (es : List FileEntry) (done : List FileEntry) :
    es.foldl appendEntry (listed done) = listed (done ++ es) := by
  induction es generalizing done with
  | nil => simp
  | cons e es ih =>
    have hstep : appendEntry (listed done) e = listed (done ++ [e]) := by
      cases e <;> simp [appendEntry, addListEntry, listed, FileEntry.isV, FileEntry.src,
        FileEntry.dst, FileEntry.data, FileEntry.isNode]
    rw [List.foldl_cons, hstep, ih, List.append_assoc]
    rfl

theorem readEntries_written {es : List FileEntry} (h : Written es text) :
    readEntries uninit {} { rest := text } = .ok (listed es) := by
  have hf := foldl_appendEntry es []
  rw [read_written h]
  exact congrArg Except.ok hf

theorem parse_written (uninit : Ring × Ring) (filename : String) (es : List FileEntry)
    (text : List Char) (h : Written es text) :
    parseSimplifiedFormat uninit filename (some text) = .ok (listed es) :=
  readEntries_written h

theorem blank_space : Blank [' '] := by simp [Blank, isSpace]

theorem decimal_one : Decimal ['1'] 1 := ⟨⟨by simp, by simp⟩, by simp [value, Nat.ofDigitChars_cons]⟩

theorem decimal_two : Decimal ['2'] 2 := ⟨⟨by simp, by simp⟩, by simp [value, Nat.ofDigitChars_cons]⟩

theorem parse_written_lines :
    parseSimplifiedFormat (3, 4) "graph.txt"
        (some ['n', ' ', '1', '\n', 'e', ' ', '1', ' ', '2']) =
      .ok (listed [.node 1 0, .edge 1 2]) :=
  have hbreak : Blank ['\n'] := by simp [Blank, isSpace]
  have hedge : Written [.edge 1 2] ['\n', 'e', ' ', '1', ' ', '2'] :=
    .cons _ _ ['\n'] ['e', ' ', '1', ' ', '2'] [] hbreak
      (.edge 'e' [' '] ['1'] [' '] ['2'] 1 2 rfl blank_space decimal_one blank_space (by simp)
        decimal_two) (by simp [Gap]) (.nil [] (by simp [Blank]))
  parse_written (3, 4) "graph.txt" [.node 1 0, .edge 1 2] _
    (.cons _ _ [] ['n', ' ', '1'] _ (by simp [Blank])
      (.node 'n' [' '] ['1'] 1 rfl blank_space decimal_one) (by simp [Gap, isSpace]) hedge)

-- what the parser takes: the format, where a number may have a sign and need not be set off from
-- a letter or a sign after it, and where the file may end inside the last entry
inductive Tolerated : List Char → Prop
  | blank (sp : List Char) : Blank sp → Tolerated sp
  | node (c : Char) (sp sp' n rest : List Char) (id : Ring) : isNodeLetter c = true → Blank sp →
      Blank sp' → Numeral 32 n id → Tolerated rest → Tolerated (sp ++ c :: (sp' ++ (n ++ rest)))
  | state (c : Char) (sp sp' n v ds rest : List Char) (id : Ring) : isNodeLetter c = true →
      Blank sp → Blank sp' → Numeral 32 n id → Blank v → v ≠ [] → Digits ds → value ds < 2 ^ 32 →
      Tolerated rest → Tolerated (sp ++ c :: (sp' ++ (n ++ (v ++ (ds ++ rest)))))
  | edge (c : Char) (sp sp' n v m rest : List Char) (source target : Ring) :
      isEdgeLetter c = true → Blank sp → Blank sp' → Numeral 32 n source → Blank v →
      Numeral 32 m target → NoDigit (v ++ m) → Tolerated rest →
      Tolerated (sp ++ c :: (sp' ++ (n ++ (v ++ (m ++ rest)))))
  | largeState (c : Char) (sp sp' n v ds : List Char) (id : Ring) : isNodeLetter c = true →
      Blank sp → Blank sp' → Numeral 32 n id → Blank v → v ≠ [] → Digits ds →
      2 ^ 32 ≤ value ds → Tolerated (sp ++ c :: (sp' ++ (n ++ (v ++ ds))))
  | noSource (c : Char) (sp sp' u : List Char) : isEdgeLetter c = true → Blank sp → Blank sp' →
      Unreadable 32 u → Tolerated (sp ++ c :: (sp' ++ u))
  | noTarget (c : Char) (sp sp' n v u : List Char) (source : Ring) : isEdgeLetter c = true →
      Blank sp → Blank sp' → Numeral 32 n source → Blank v → Unreadable 32 u →
      NoDigit (v ++ u) → Tolerated (sp ++ c :: (sp' ++ (n ++ (v ++ u))))

theorem Begins.letter (hsp : Blank sp) (hc : isNodeLetter c = true ∨ isEdgeLetter c = true) :
    Begins (sp ++ c :: rest) :=
  Or.inr ⟨sp, c, rest, rfl, hsp, isSpace_of_letter hc, isDigit_of_letter hc⟩

theorem Tolerated.begins (h : Tolerated text) : Begins text := by
  cases h with
  | blank sp hsp => exact Or.inl hsp
  | node c _ _ _ _ _ hc hsp => exact .letter hsp (Or.inl hc)
  | state c _ _ _ _ _ _ _ hc hsp => exact .letter hsp (Or.inl hc)
  | edge c _ _ _ _ _ _ _ _ hc hsp => exact .letter hsp (Or.inr hc)
  | largeState c _ _ _ _ _ _ hc hsp => exact .letter hsp (Or.inl hc)
  | noSource c _ _ _ hc hsp => exact .letter hsp (Or.inr hc)
  | noTarget c _ _ _ _ _ _ hc hsp => exact .letter hsp (Or.inr hc)

theorem Begins.noDigit (h : Begins rest) : NoDigit rest := by
  rcases h with hb | ⟨sp, c, t, rfl, hsp, hc, hd⟩
  · exact Gap.noDigit fun c hc => hb c (List.mem_of_mem_head? hc)
  · obtain _ | ⟨b, u⟩ := sp
    · intro d hd'
      simp only [List.nil_append, List.head?_cons, Option.mem_some] at hd'
      exact hd' ▸ hd
    · exact (Gap.of_blank hsp (List.cons_ne_nil b u)).noDigit

theorem NoDigit.append {v m : List Char} (h : NoDigit (v ++ m)) (hne : v ++ m ≠ []) :
    NoDigit (v ++ (m ++ rest)) := by
  intro c hc
  obtain ⟨d, t, hdt⟩ := List.exists_cons_of_ne_nil hne
  rw [← List.append_assoc, hdt] at hc
  exact h c (by rw [hdt]; exact hc)

theorem read_largeState (hc : isNodeLetter c = true) (hsp : Blank sp) (hsp' : Blank sp')
    (hn : Numeral 32 n x) {v ds : List Char} (hv : Blank v) (hvne : v ≠ []) (hds : Digits ds)
    (hlarge : 2 ^ 32 ≤ value ds) :
    ∃ g', readEntries uninit g { rest := sp ++ c :: (sp' ++ (n ++ (v ++ ds))) } = .ok g' := by
  have hnil : Blank [] := by simp [Blank]
  obtain ⟨y, hy⟩ := getUnsigned_unreadable x hnil (.large [] ds (Or.inl rfl) hds hlarge)
  rw [List.nil_append, List.nil_append] at hy
  have hr : readEntry uninit c g { rest := sp' ++ (n ++ (v ++ (ds ++ []))) } = _ :=
    readEntry_state hc hsp' hn hv hvne hds
  rw [List.append_nil, hy] at hr
  rw [readEntries_cons hsp (isSpace_of_letter (Or.inl hc)), hr]
  exact ⟨_, readEntries_stopped (by rfl)⟩

theorem NoDigit.left {v : List Char} (h : NoDigit (v ++ rest)) : NoDigit v := by
  intro c hc
  obtain _ | ⟨d, t⟩ := v
  · simp at hc
  · exact h c hc

theorem read_noSource (hc : isEdgeLetter c = true) (hsp : Blank sp) (hsp' : Blank sp')
    {u : List Char} (hu : Unreadable 32 u) :
    ∃ g', readEntries uninit g { rest := sp ++ c :: (sp' ++ u) } = .ok g' := by
  obtain ⟨x, hx⟩ := getUnsigned_unreadable uninit.1 hsp' hu
  rw [readEntries_cons hsp (isSpace_of_letter (Or.inr hc))]
  simp only [readEntry, not_node_of_edge hc, hc, if_true, Bool.false_eq_true, if_false, hx]
  rw [getUnsigned_stopped _ (by rfl)]
  exact ⟨_, readEntries_stopped (by rfl)⟩

theorem read_noTarget (hc : isEdgeLetter c = true) (hsp : Blank sp) (hsp' : Blank sp')
    (hn : Numeral 32 n x) {v u : List Char} (hv : Blank v) (hu : Unreadable 32 u)
    (hnd : NoDigit (v ++ u)) :
    ∃ g', readEntries uninit g { rest := sp ++ c :: (sp' ++ (n ++ (v ++ u))) } = .ok g' := by
  obtain ⟨y, hy⟩ := getUnsigned_unreadable uninit.2 hv hu
  rw [readEntries_cons hsp (isSpace_of_letter (Or.inr hc))]
  simp only [readEntry, not_node_of_edge hc, hc, if_true, Bool.false_eq_true, if_false,
    getUnsigned_numeral _ hsp' hn hnd]
  by_cases he : v ++ u = []
  · rw [he, getUnsigned_stopped _ (by rfl)]
    exact ⟨_, readEntries_stopped (by rfl)⟩
  · rw [List.isEmpty_eq_false_iff.mpr he, hy]
    exact ⟨_, readEntries_stopped (by rfl)⟩

theorem read_tolerated (h : Tolerated text) (g : Graph) :
    ∃ g', readEntries uninit g { rest := text } = .ok g' := by
  induction h generalizing g with
  | blank sp hsp => exact ⟨g, readEntries_blank hsp⟩
  | node c sp sp' n rest id hc hsp hsp' hn ht ih =>
    rw [read_node hc hsp hsp' hn ht.begins.noDigit ht.begins]
    exact ih _
  | state c sp sp' n v ds rest id hc hsp hsp' hn hv hvne hds hlt ht ih =>
    rw [read_state hc hsp hsp' hn hv hvne hds hlt ht.begins.noDigit]
    exact ih _
  | edge c sp sp' n v m rest source target hc hsp hsp' hn hv hm hnd ht ih =>
    have hne : v ++ m ≠ [] := by
      obtain ⟨sg, ds, rfl, -, hds, -⟩ := hm.signed
      simp [hds.nonempty]
    rw [read_edge hc hsp hsp' hn hv hm (NoDigit.append hnd hne) ht.begins.noDigit]
    exact ih _
  | largeState c sp sp' n v ds id hc hsp hsp' hn hv hvne hds hlt =>
    exact read_largeState hc hsp hsp' hn hv hvne hds hlt
  | noSource c sp sp' u hc hsp hsp' hu => exact read_noSource hc hsp hsp' hu
  | noTarget c sp sp' n v u source hc hsp hsp' hn hv hu hnd =>
    exact read_noTarget hc hsp hsp' hn hv hu hnd

theorem Tolerated.skip (hsp : Blank sp) (h : Tolerated text) : Tolerated (sp ++ text) := by
  have happ {sp2 : List Char} (hsp2 : Blank sp2) : Blank (sp ++ sp2) := fun c hc =>
    (List.mem_append.mp hc).elim (hsp c) (hsp2 c)
  cases h with
  | blank sp2 hsp2 => exact .blank _ (happ hsp2)
  | node c sp2 sp' n rest id hc hsp2 hsp' hn ht =>
    rw [← List.append_assoc]
    exact .node c _ sp' n rest id hc (happ hsp2) hsp' hn ht
  | state c sp2 sp' n v ds rest id hc hsp2 hsp' hn hv hvne hds hlt ht =>
    rw [← List.append_assoc]
    exact .state c _ sp' n v ds rest id hc (happ hsp2) hsp' hn hv hvne hds hlt ht
  | edge c sp2 sp' n v m rest source target hc hsp2 hsp' hn hv hm hnd ht =>
    rw [← List.append_assoc]
    exact .edge c _ sp' n v m rest source target hc (happ hsp2) hsp' hn hv hm hnd ht
  | largeState c sp2 sp' n v ds id hc hsp2 hsp' hn hv hvne hds hlt =>
    rw [← List.append_assoc]
    exact .largeState c _ sp' n v ds id hc (happ hsp2) hsp' hn hv hvne hds hlt
  | noSource c sp2 sp' u hc hsp2 hsp' hu =>
    rw [← List.append_assoc]
    exact .noSource c _ sp' u hc (happ hsp2) hsp' hu
  | noTarget c sp2 sp' n v u source hc hsp2 hsp' hn hv hu hnd =>
    rw [← List.append_assoc]
    exact .noTarget c _ sp' n v u source hc (happ hsp2) hsp' hn hv hu hnd

theorem tolerated_rest (ih : ∀ t, t.length < text.length → ∀ g g',
      readEntries uninit g { rest := t } = .ok g' → Tolerated t)
    (hlt : rest.length < text.length)
    (h : readEntries uninit g { rest := rest, eof := rest.isEmpty } = .ok g') : Tolerated rest := by
  rw [readEntries_eof] at h
  exact ih rest hlt g g' h

theorem tolerated_edge {t : List Char} (hc : isEdgeLetter c = true) (hsp : Blank sp)
    (ih : ∀ u, u.length < (sp ++ c :: t).length → ∀ g g',
      readEntries uninit g { rest := u } = .ok g' → Tolerated u)
    (h : follow uninit (readEntry uninit c g { rest := t }) = .ok g') :
    Tolerated (sp ++ c :: t) := by
  simp only [readEntry, not_node_of_edge hc, hc, if_true, Bool.false_eq_true, if_false] at h
  rcases getUnsigned_cases uninit.1 t with ⟨sp', n, rest, x, rfl, hsp', hn, hr, hget⟩ |
    ⟨sp', u, x, rfl, hsp', hu, hget⟩ | ⟨x, rest, hget⟩
  · rw [hget] at h
    obtain _ | ⟨d, rest⟩ := rest
    · exact .noTarget c sp sp' n [] [] x hc hsp hsp' hn (by simp [Blank]) .missing
        (by simp [NoDigit])
    · rw [show (d :: rest).isEmpty = false from rfl] at h
      rcases getUnsigned_cases uninit.2 (d :: rest) with ⟨v, m, rest2, y, hdr, hv, hm, hr2, hget2⟩ |
        ⟨v, u, y, hdr, hv, hu, hget2⟩ | ⟨y, rest2, hget2⟩
      · rw [hget2] at h
        rw [hdr] at hr ih ⊢
        have hlt : rest2.length < (sp ++ c :: (sp' ++ (n ++ (v ++ (m ++ rest2))))).length := by
          simp only [List.length_append, List.length_cons]
          omega
        exact .edge c sp sp' n v m rest2 x y hc hsp hsp' hn hv hm
          (NoDigit.left (List.append_assoc v m rest2 ▸ hr)) (tolerated_rest ih hlt h)
      · rw [hdr] at hr ⊢
        exact .noTarget c sp sp' n v u x hc hsp hsp' hn hv hu hr
      · rw [hget2] at h
        simp [follow, readEntries_stopped, good] at h
  · exact .noSource c sp sp' u hc hsp hsp' hu
  · rw [hget, getUnsigned_stopped _ (by rfl)] at h
    simp [follow, readEntries_stopped, good] at h

theorem sign_noDigit {sg ds : List Char} (hsg : Sign sg) (hne : sg ≠ []) : NoDigit (sg ++ ds) := by
  intro c hc
  rcases hsg with rfl | rfl | rfl
  · exact absurd rfl hne
  · obtain rfl : '+' = c := by simpa using hc
    decide
  · obtain rfl : '-' = c := by simpa using hc
    decide

theorem numeral_digits (hm : Numeral 32 m y) (hd : ¬ NoDigit m) :
    Digits m ∧ value m < 2 ^ 32 := by
  obtain ⟨sg, ds, rfl, hsg, hds, hlt, -⟩ := hm.signed
  by_cases hne : sg = []
  · rw [hne, List.nil_append]
    exact ⟨hds, hlt⟩
  · exact absurd (sign_noDigit hsg hne) hd

theorem unreadable_digits {u : List Char} (hu : Unreadable 32 u) (hd : ¬ NoDigit u) :
    Digits u ∧ 2 ^ 32 ≤ value u := by
  cases hu with
  | missing => exact absurd (by simp [NoDigit]) hd
  | sign c hc =>
    have hsg : Sign [c] := by rcases hc with rfl | rfl <;> simp [Sign]
    have hno : NoDigit ([c] ++ []) := sign_noDigit hsg (by simp)
    exact absurd hno hd
  | large sg ds hsg hds hlarge =>
    by_cases hne : sg = []
    · rw [hne, List.nil_append]
      exact ⟨hds, hlarge⟩
    · exact absurd (sign_noDigit hsg hne) hd

theorem tolerated_state {t v : List Char} (hc : isNodeLetter c = true) (hsp : Blank sp)
    (hsp' : Blank sp') (hn : Numeral 32 n x) (hv : Blank v) (hvne : v ≠ [])
    (hd : d.isDigit = true)
    (ih : ∀ u, u.length < (sp ++ c :: (sp' ++ (n ++ (v ++ d :: t)))).length → ∀ g g',
      readEntries uninit g { rest := u } = .ok g' → Tolerated u)
    (h : readEntries uninit g (getUnsigned x { rest := d :: t }).2 = .ok g') :
    Tolerated (sp ++ c :: (sp' ++ (n ++ (v ++ d :: t)))) := by
  have hnil {w u : List Char} (hw : Blank w) (he : d :: t = w ++ u) : w = [] := by
    obtain _ | ⟨b, w⟩ := w
    · rfl
    · obtain ⟨rfl, -⟩ := List.cons.inj he
      exact absurd (hw d (List.mem_cons_self ..)) (by simp [isSpace_of_isDigit hd])
  have hdig {u r : List Char} (hu : u ≠ []) (he : d :: t = u ++ r) : ¬ NoDigit u := by
    obtain ⟨b, u, rfl⟩ := List.exists_cons_of_ne_nil hu
    obtain ⟨rfl, -⟩ := List.cons.inj he
    exact fun hno => absurd (hno d rfl) (by simp [hd])
  rcases getUnsigned_cases x (d :: t) with ⟨w, m, rest, y, he, hw, hm, hr, hget⟩ |
    ⟨w, u, y, he, hw, hu, hget⟩ | ⟨y, rest, hget⟩
  · obtain rfl := hnil hw he
    rw [List.nil_append] at he
    have hne : m ≠ [] := by
      obtain ⟨sg, ds, rfl, -, hds, -⟩ := hm.signed
      simp [hds.nonempty]
    obtain ⟨hds, hlt⟩ := numeral_digits hm (hdig hne he)
    rw [hget] at h
    rw [he] at ih ⊢
    have hlen : rest.length < (sp ++ c :: (sp' ++ (n ++ (v ++ (m ++ rest))))).length := by
      simp only [List.length_append, List.length_cons]
      omega
    exact .state c sp sp' n v m rest x hc hsp hsp' hn hv hvne hds hlt (tolerated_rest ih hlen h)
  · obtain rfl := hnil hw he
    rw [List.nil_append] at he
    obtain ⟨hds, hlarge⟩ := unreadable_digits hu (hdig (r := []) (by simp [← he]) (by simp [he]))
    rw [he]
    exact .largeState c sp sp' n v u x hc hsp hsp' hn hv hvne hds hlarge
  · rw [hget] at h
    simp [readEntries_stopped, good] at h

theorem tolerated_node {t : List Char} (hc : isNodeLetter c = true) (hsp : Blank sp)
    (ih : ∀ u, u.length < (sp ++ c :: t).length → ∀ g g',
      readEntries uninit g { rest := u } = .ok g' → Tolerated u)
    (h : follow uninit (readEntry uninit c g { rest := t }) = .ok g') :
    Tolerated (sp ++ c :: t) := by
  simp only [readEntry, hc, if_true] at h
  rcases getUnsigned_cases uninit.1 t with ⟨sp', n, rest, x, rfl, hsp', hn, hr, hget⟩ |
    ⟨sp', u, x, rfl, hsp', hu, hget⟩ | ⟨x, rest, hget⟩
  · rw [hget] at h
    simp only [Bool.false_eq_true, if_false] at h
    obtain ⟨v, t, rfl, hv, ht⟩ := blank_cases rest
    obtain _ | ⟨d, t⟩ := t
    · exact .node c sp sp' n _ x hc hsp hsp' hn (.blank _ (by rwa [List.append_nil]))
    · have hd : isSpace d = false := ht d rfl
      rw [show (v ++ d :: t).isEmpty = false by cases v <;> rfl, getChar_cons hv hd] at h
      simp only [putback] at h
      by_cases hdig : d.isDigit = true
      · rw [if_pos hdig] at h
        have hvne : v ≠ [] := by
          rintro rfl
          exact absurd (hr d rfl) (by simp [hdig])
        exact tolerated_state hc hsp hsp' hn hv hvne hdig ih h
      · rw [if_neg hdig] at h
        have hlt : (d :: t).length < (sp ++ c :: (sp' ++ (n ++ (v ++ d :: t)))).length := by
          simp only [List.length_append, List.length_cons]
          omega
        exact .node c sp sp' n _ x hc hsp hsp' hn (.skip hv (ih _ hlt _ _ h))
  · rw [hget] at h
    simp [follow] at h
  · rw [hget] at h
    simp [follow] at h

theorem tolerated_of_read (text : List Char) (g g' : Graph)
    (h : readEntries uninit g { rest := text } = .ok g') : Tolerated text := by
  induction hlen : text.length using Nat.strong_induction_on generalizing text g g' with
  | _ k ih =>
    subst hlen
    have ih' : ∀ u, u.length < text.length → ∀ g g',
        readEntries uninit g { rest := u } = .ok g' → Tolerated u :=
      fun u hu g g' hg => ih u.length hu u g g' hg rfl
    obtain ⟨sp, t, rfl, hsp, ht⟩ := blank_cases text
    obtain _ | ⟨c, t⟩ := t
    · exact .blank _ (by rwa [List.append_nil])
    · rw [readEntries_cons hsp (ht c rfl)] at h
      by_cases hn : isNodeLetter c = true
      · exact tolerated_node hn hsp ih' h
      · by_cases he : isEdgeLetter c = true
        · exact tolerated_edge he hsp ih' h
        · simp [readEntry, hn, he, follow] at h

structure Rejects (uninit : Ring × Ring) (filename : String) (text : List Char) : Prop where
  malformed : (¬ ∃ es, Written es text) →
    ∃ e, parseSimplifiedFormat uninit filename (some text) = .error e
  written : ∀ g, parseSimplifiedFormat uninit filename (some text) = .ok g →
    ∃ es, Written es text ∧ g = listed es

theorem rejects_iff (uninit : Ring × Ring) (filename : String) (text : List Char) :
    Rejects uninit filename text ↔ (∃ es, Written es text) ∨ ¬ Tolerated text := by
  constructor
  · intro hr
    by_cases ht : Tolerated text
    · obtain ⟨g, hg⟩ : ∃ g, readEntries uninit {} { rest := text } = .ok g := read_tolerated ht {}
      obtain ⟨es, hes, -⟩ := hr.written g hg
      exact Or.inl ⟨es, hes⟩
    · exact Or.inr ht
  · rintro (⟨es, hes⟩ | ht)
    · have hparse : parseSimplifiedFormat uninit filename (some text) = .ok (listed es) :=
        readEntries_written hes
      refine ⟨fun hno => absurd ⟨es, hes⟩ hno, fun g hg => ⟨es, hes, ?_⟩⟩
      rw [hparse, Except.ok.injEq] at hg
      exact hg.symm
    · have herr : ∀ g, parseSimplifiedFormat uninit filename (some text) ≠ .ok g :=
        fun g hg => ht (tolerated_of_read text _ _ hg)
      refine ⟨fun _ => ?_, fun g hg => absurd hg (herr g)⟩
      cases hp : parseSimplifiedFormat uninit filename (some text) with
      | error e => exact ⟨e, rfl⟩
      | ok g => exact absurd hp (herr g)

theorem edge_without_target (uninit : Ring × Ring) :
    readEntries uninit {} { rest := ['e', ' ', '1'] } = .ok (listed [.edge 1 uninit.2]) := by
  have hone : getUnsigned uninit.1 { rest := [' ', '1'] } = (1, { rest := [], eof := true }) := by
    have h : getUnsigned uninit.1 { rest := [' '] ++ (['1'] ++ []) } = _ :=
      getUnsigned_numeral uninit.1 blank_space decimal_one.numeral (by simp [NoDigit])
    exact h
  have h : readEntries uninit {} { rest := [] ++ 'e' :: [' ', '1'] } = _ :=
    readEntries_cons (by simp [Blank]) (by decide)
  rw [List.nil_append] at h
  rw [h, readEntry, if_neg (by decide), if_pos (by decide)]
  have hstop : (InputStream.mk [] true false).good = false := rfl
  simp only [hone, getUnsigned_stopped _ hstop]
  rw [follow, readEntries_stopped (by rfl)]
  rfl

theorem truncated_edge_accepted :
    parseSimplifiedFormat (0, 7) "graph.txt" (some ['e', ' ', '1']) = .ok (listed [.edge 1 7]) ∧
      ¬ Rejects (0, 7) "graph.txt" ['e', ' ', '1'] := by
  refine ⟨edge_without_target (0, 7), fun hr => ?_⟩
  obtain ⟨es, hes, h7⟩ := hr.written _ (edge_without_target (0, 7))
  have h8 : readEntries (0, 8) {} { rest := ['e', ' ', '1'] } = _ := readEntries_written hes
  rw [edge_without_target, Except.ok.injEq, ← h7] at h8
  exact absurd h8 (by decide)

end Graph

end GraphMpc
