import Mathlib.Data.List.AList
import Mathlib.Data.List.DropRight
import PrefixMesh.Directory.Replicas

/-! The flags that name the other replicas of a directory and the nodes of a static ring:
`id=host:port` parts with commas between them. The parser accepts exactly such texts, with
blanks around the parts. Replicas that are started with each other as peers make a
deployment, as the theorems about the log assume. -/

namespace PrefixMesh.Directory

def isSpace (c : Char) : Bool :=
  decide (c.toNat ∈ [0x9, 0xa, 0xb, 0xc, 0xd, 0x20, 0x85, 0xa0, 0x1680, 0x2028, 0x2029, 0x202f, 0x205f, 0x3000]) ||
    decide (0x2000 ≤ c.toNat ∧ c.toNat ≤ 0x200a)

def trimSpace (s : List Char) : List Char := (s.dropWhile isSpace).rdropWhile isSpace

/-- `strings.Cut` around the first `=`. -/
def cut : List Char → Option (List Char × List Char)
  | [] => none
  | c :: rest => if c = '=' then some ([], rest) else (cut rest).map fun parts => (c :: parts.1, parts.2)

abbrev Addresses := AList fun _ : String => String

def parseLoop : List (List Char) → Addresses → Option Addresses
  | [], nodes => some nodes
  | part :: rest, nodes =>
      match cut (trimSpace part) with
      | none => none
      | some (id, addr) =>
          if id = [] ∨ addr = [] then none
          else parseLoop rest (nodes.insert (String.ofList id) (String.ofList addr))

/-- Of the gateway. -/
def parseNodes (s : String) : Option Addresses := parseLoop (s.toList.splitOn ',') ∅

/-- Of the directory; a replica of its own has no peers. -/
def parsePeers (s : String) : Option Addresses :=
  if s = "" then some ∅ else parseLoop (s.toList.splitOn ',') ∅

structure Part where
  before : List Char
  id : List Char
  addr : List Char
  after : List Char
  blank : ∀ c ∈ before ++ after, isSpace c = true
  id_filled : id ≠ []
  addr_filled : addr ≠ []
  id_plain : '=' ∉ id ∧ ',' ∉ id
  addr_plain : ',' ∉ addr
  id_begins : ∀ c ∈ id.head?, isSpace c = false
  addr_ends : ∀ c ∈ addr.getLast?, isSpace c = false

def Part.pair (part : Part) : List Char := part.id ++ '=' :: part.addr

def Part.text (part : Part) : List Char := part.before ++ (part.pair ++ part.after)

def render (parts : List Part) : String := String.ofList ([','].intercalate (parts.map Part.text))

/-- The addresses that the parts give; of two for one id the later one counts. -/
def addresses (parts : List Part) (nodes : Addresses) : Addresses :=
  parts.foldl (fun nodes part => nodes.insert (String.ofList part.id) (String.ofList part.addr)) nodes

theorem cut_iff (s id addr : List Char) : cut s = some (id, addr) ↔ s = id ++ '=' :: addr ∧ '=' ∉ id := by
  induction s generalizing id with
  | nil => simp [cut]
  | cons c rest ih =>
    rw [cut]
    split
    next same =>
      subst same
      cases id with
      | nil => simp [eq_comm]
      | cons d id =>
        simp only [Option.some.injEq, Prod.mk.injEq, List.nil_eq, reduceCtorEq, false_and, false_iff, not_and]
        intro whole plain
        rw [List.cons_append, List.cons.injEq] at whole
        exact plain (whole.1 ▸ List.mem_cons_self)
    next other =>
      rw [Option.map_eq_some_iff]
      constructor
      · rintro ⟨⟨front, back⟩, found, same⟩
        cases same
        obtain ⟨rfl, plain⟩ := (ih front).mp found
        exact ⟨rfl, fun inside => (List.mem_cons.mp inside).elim (fun same => other same.symm) plain⟩
      · rintro ⟨whole, plain⟩
        cases id with
        | nil =>
          cases whole
          exact absurd rfl other
        | cons d id =>
          cases whole
          exact ⟨(id, addr), (ih id).mpr ⟨rfl, fun inside => plain (List.mem_cons_of_mem _ inside)⟩, rfl⟩

theorem trimSpace_spec (s : List Char) : ∃ before after, s = before ++ (trimSpace s ++ after) ∧
    (∀ c ∈ before ++ after, isSpace c = true) ∧ (∀ c ∈ (trimSpace s).head?, isSpace c = false) ∧
    ∀ c ∈ (trimSpace s).getLast?, isSpace c = false := by
  refine ⟨s.takeWhile isSpace, (s.dropWhile isSpace).rtakeWhile isSpace, ?_, ?_, ?_, ?_⟩
  · rw [trimSpace, List.rdropWhile_append_rtakeWhile, List.takeWhile_append_dropWhile]
  · intro c inside
    rcases List.mem_append.mp inside with first | last
    · exact List.mem_takeWhile_imp first
    · exact List.mem_rtakeWhile_imp last
  · intro c first
    have begins := List.head?_dropWhile_not isSpace s
    have same : (s.dropWhile isSpace).head? = some c := by
      obtain ⟨tail, whole⟩ := List.rdropWhile_prefix isSpace (s.dropWhile isSpace)
      rw [← whole, List.head?_append, ← trimSpace, Option.mem_def.mp first]
      rfl
    rw [same] at begins
    exact begins
  · intro c last
    have filled : trimSpace s ≠ [] := by
      intro empty
      rw [empty] at last
      cases last
    have ends := List.rdropWhile_last_not isSpace (s.dropWhile isSpace) filled
    rw [List.getLast?_eq_some_getLast filled, Option.mem_some] at last
    rw [← last, ← Bool.not_eq_true]
    exact ends

theorem dropWhile_of_head {p : Char → Bool} {s : List Char} (begins : ∀ c ∈ s.head?, p c = false) :
    s.dropWhile p = s := by
  cases s with
  | nil => rfl
  | cons c rest => exact List.dropWhile_cons_of_neg (by rw [begins c rfl]; exact Bool.false_ne_true)

theorem Part.trimSpace_text (part : Part) : trimSpace part.text = part.pair := by
  have blank := part.blank
  have begins : ∀ c ∈ (part.pair ++ part.after).head?, isSpace c = false := by
    intro c first
    refine part.id_begins c ?_
    obtain ⟨d, rest, whole⟩ := List.exists_cons_of_ne_nil part.id_filled
    rw [Part.pair, whole] at first
    rw [whole]
    exact first
  have ends : ∀ c ∈ part.pair.reverse.head?, isSpace c = false := by
    intro c last
    refine part.addr_ends c ?_
    rw [List.head?_reverse, Part.pair, List.getLast?_append_of_ne_nil _ (List.cons_ne_nil _ _),
      List.getLast?_cons_of_ne_nil part.addr_filled] at last
    exact last
  have front : part.text.dropWhile isSpace = part.pair ++ part.after := by
    rw [Part.text, List.dropWhile_append_of_pos fun c inside => blank c (List.mem_append_left _ inside),
      dropWhile_of_head begins]
  have back : (part.pair ++ part.after).reverse.dropWhile isSpace = part.pair.reverse := by
    rw [List.reverse_append, List.dropWhile_append_of_pos fun c inside =>
      blank c (List.mem_append_right _ (List.mem_reverse.mp inside)), dropWhile_of_head ends]
  rw [trimSpace, front, List.rdropWhile, back, List.reverse_reverse]

theorem Part.cut_text (part : Part) : cut (trimSpace part.text) = some (part.id, part.addr) := by
  rw [part.trimSpace_text]
  exact (cut_iff _ _ _).mpr ⟨rfl, part.id_plain.1⟩

theorem exists_part {piece id addr : List Char} (plain : ',' ∉ piece) (found : cut (trimSpace piece) = some (id, addr))
    (id_filled : id ≠ []) (addr_filled : addr ≠ []) :
    ∃ part : Part, part.text = piece ∧ part.id = id ∧ part.addr = addr := by
  obtain ⟨before, after, whole, blank, begins, ends⟩ := trimSpace_spec piece
  obtain ⟨trimmed, id_plain⟩ := (cut_iff _ _ _).mp found
  rw [trimmed] at whole begins ends
  have no_comma : ',' ∉ id ∧ ',' ∉ addr := by
    rw [whole] at plain
    simp only [List.mem_append, List.mem_cons, not_or] at plain
    exact ⟨plain.2.1.1, plain.2.1.2.2⟩
  refine ⟨⟨before, id, addr, after, blank, id_filled, addr_filled, ⟨id_plain, no_comma.1⟩, no_comma.2, ?_, ?_⟩,
    whole.symm, rfl, rfl⟩
  · intro c first
    refine begins c ?_
    rw [List.head?_append, Option.mem_def.mp first]
    rfl
  · intro c last
    refine ends c ?_
    rw [List.getLast?_append_of_ne_nil _ (List.cons_ne_nil _ _), List.getLast?_cons_of_ne_nil addr_filled]
    exact last

theorem Part.no_comma (part : Part) : ',' ∉ part.text := by
  have blank : ',' ∉ part.before ++ part.after := fun inside => by
    have space := part.blank _ inside
    revert space
    decide
  simp only [Part.text, Part.pair, List.mem_append, List.mem_cons, not_or] at blank ⊢
  exact ⟨blank.1, ⟨part.id_plain.2, by decide, part.addr_plain⟩, blank.2⟩

theorem parseLoop_iff (pieces : List (List Char)) (plain : ∀ piece ∈ pieces, ',' ∉ piece) (nodes result : Addresses) :
    parseLoop pieces nodes = some result ↔
      ∃ parts : List Part, parts.map Part.text = pieces ∧ result = addresses parts nodes := by
  induction pieces generalizing nodes with
  | nil =>
    simp only [parseLoop, Option.some.injEq, List.map_eq_nil_iff, exists_eq_left]
    exact eq_comm
  | cons piece rest ih =>
    have later := ih (fun other inside => plain other (List.mem_cons_of_mem _ inside))
    constructor
    · intro parsed
      rw [parseLoop] at parsed
      split at parsed
      · cases parsed
      next id addr found =>
        split at parsed
        · cases parsed
        next filled =>
          obtain ⟨id_filled, addr_filled⟩ := not_or.mp filled
          obtain ⟨part, text, rfl, rfl⟩ := exists_part (plain piece List.mem_cons_self) found id_filled addr_filled
          obtain ⟨parts, texts, same⟩ := (later _).mp parsed
          exact ⟨part :: parts, by rw [List.map_cons, text, texts], same⟩
    · rintro ⟨parts, texts, same⟩
      obtain ⟨part, others, rfl, rfl, rest_texts⟩ := List.map_eq_cons_iff.mp texts
      simp only [parseLoop, part.cut_text, part.id_filled, part.addr_filled, or_self, if_false]
      exact (later _).mpr ⟨others, rest_texts, same⟩

theorem splitOn_plain (s : List Char) : ∀ piece ∈ s.splitOn ',', ',' ∉ piece := by
  induction s with
  | nil => simp [List.splitOn]
  | cons c rest ih =>
    rw [List.splitOn, List.splitOnP_cons_eq_if_modifyHead]
    rw [List.splitOn] at ih
    split
    · intro piece inside
      rcases List.mem_cons.mp inside with rfl | inside
      · exact List.not_mem_nil
      · exact ih piece inside
    next other =>
      have different : ',' ≠ c := fun same => other (by simp [← same])
      cases pieces : rest.splitOnP (· == ',') with
      | nil => exact List.forall_mem_nil _
      | cons first more =>
        rw [pieces] at ih
        intro piece inside
        rcases List.mem_cons.mp inside with rfl | inside
        · intro member
          exact (List.mem_cons.mp member).elim different (ih first List.mem_cons_self)
        · exact ih piece (List.mem_cons_of_mem _ inside)

theorem parse_iff (s : String) (nodes : Addresses) : parseLoop (s.toList.splitOn ',') ∅ = some nodes ↔
    ∃ parts, parts ≠ [] ∧ s = render parts ∧ nodes = addresses parts ∅ := by
  rw [parseLoop_iff _ (splitOn_plain _)]
  constructor
  · rintro ⟨parts, texts, same⟩
    refine ⟨parts, ?_, ?_, same⟩
    · rintro rfl
      exact List.splitOn_ne_nil _ _ texts.symm
    · rw [render, texts, List.intercalate_splitOn, String.ofList_toList]
  · rintro ⟨parts, filled, rfl, same⟩
    refine ⟨parts, ?_, same⟩
    rw [render, String.toList_ofList, List.splitOn_intercalate]
    · intro text inside
      obtain ⟨part, _, rfl⟩ := List.mem_map.mp inside
      exact part.no_comma
    · exact fun none_ => filled (List.map_eq_nil_iff.mp none_)

theorem parsePeers_iff (s : String) (nodes : Addresses) : parsePeers s = some nodes ↔
    s = "" ∧ nodes = ∅ ∨ ∃ parts, parts ≠ [] ∧ s = render parts ∧ nodes = addresses parts ∅ := by
  rw [parsePeers]
  split
  next empty =>
    subst empty
    have refused : parseLoop ("".toList.splitOn ',') ∅ = none := by decide
    rw [← parse_iff, refused, Option.some.injEq]
    simp [eq_comm]
  next filled =>
    rw [parse_iff]
    simp [filled]

theorem parsePeers_render (parts : List Part) : parsePeers (render parts) = some (addresses parts ∅) := by
  rw [parsePeers_iff]
  by_cases alone : parts = []
  · exact Or.inl ⟨by rw [alone]; rfl, by rw [alone]; rfl⟩
  · exact Or.inr ⟨parts, alone, rfl, rfl⟩

/-- What the two flags accept are lists of parts, and the addresses are those of the parts; an empty text names no
peers, and is refused where nodes are needed. -/
theorem flags_iff (s : String) (nodes : Addresses) :
    (parseNodes s = some nodes ↔ ∃ parts, parts ≠ [] ∧ s = render parts ∧ nodes = addresses parts ∅) ∧
    (parsePeers s = some nodes ↔
      s = "" ∧ nodes = ∅ ∨ ∃ parts, parts ≠ [] ∧ s = render parts ∧ nodes = addresses parts ∅) :=
  ⟨parse_iff s nodes, parsePeers_iff s nodes⟩

def Part.name (part : Part) : String := String.ofList part.id

theorem addresses_keys (parts : List Part) (nodes : Addresses) (distinct : (parts.map Part.name ++ nodes.keys).Nodup) :
    (addresses parts nodes).keys.Perm (parts.map Part.name ++ nodes.keys) := by
  induction parts generalizing nodes with
  | nil => exact List.Perm.refl _
  | cons part rest ih =>
    rw [List.map_cons, List.cons_append, List.nodup_cons] at distinct
    have absent : part.name ∉ nodes.keys := fun inside => distinct.1 (List.mem_append_right _ inside)
    have keys : (nodes.insert part.name (String.ofList part.addr)).keys = part.name :: nodes.keys := by
      rw [AList.keys_insert, List.erase_of_not_mem absent]
    have middle : (rest.map Part.name ++ part.name :: nodes.keys).Perm
        (part.name :: (rest.map Part.name ++ nodes.keys)) := List.perm_middle
    have later := ih (nodes.insert part.name (String.ofList part.addr))
      (by rw [keys, middle.nodup_iff, List.nodup_cons]; exact distinct)
    rw [keys] at later
    exact later.trans middle

theorem addresses_other (parts : List Part) (nodes : Addresses) {id : String} (other : id ∉ parts.map Part.name) :
    (addresses parts nodes).lookup id = nodes.lookup id := by
  induction parts generalizing nodes with
  | nil => rfl
  | cons part rest ih =>
    rw [List.map_cons, List.mem_cons, not_or] at other
    exact (ih _ other.2).trans (AList.lookup_insert_ne other.1)

theorem addresses_own (parts : List Part) (nodes : Addresses) (distinct : (parts.map Part.name).Nodup) {part : Part}
    (inside : part ∈ parts) : (addresses parts nodes).lookup part.name = some (String.ofList part.addr) := by
  induction parts generalizing nodes with
  | nil => cases inside
  | cons first rest ih =>
    rw [List.map_cons, List.nodup_cons] at distinct
    rcases List.mem_cons.mp inside with rfl | later
    · exact (addresses_other rest _ distinct.1).trans (AList.lookup_insert _)
    · exact ih _ distinct.2 later

/-- The list that `New` builds: the replica itself, and its peers in the order of a map iteration. -/
def newReplicas (self : String) (range : List String) : List String := self :: range

/-- Up to 256 replicas, each started with its id and a flag that names the others in any order, make a deployment, and
each of them has the address of every other. -/
theorem flags_make_deployment (pb : Protobuf) (ids : List String) (distinct : ids.Nodup) (nonempty : 0 < ids.length)
    (atMost : ids.length ≤ 256) (noop : String → Bytes) (encoded : ∀ n, pb.encodes (.noop true) (noop n) = true)
    (peers : String → List Part) (others : ∀ n ∈ ids, ((peers n).map Part.name).Perm (ids.erase n))
    (range : String → List String)
    (iterates : ∀ n ∈ ids, ∀ nodes, parsePeers (render (peers n)) = some nodes → (range n).Perm nodes.keys) :
    ∃ d : Deployment pb, d.ids = ids ∧ d.noop = noop ∧ ∀ n ∈ ids, d.replicas n = newReplicas n (range n) ∧
      ∃ nodes, parsePeers (render (peers n)) = some nodes ∧
        ∀ part ∈ peers n, nodes.lookup part.name = some (String.ofList part.addr) := by
  have named : ∀ n ∈ ids, ((peers n).map Part.name).Nodup :=
    fun n member => (others n member).nodup_iff.mpr (distinct.erase n)
  have listed : ∀ n ∈ ids, (newReplicas n (range n)).Perm ids := by
    intro n member
    have keys := addresses_keys (peers n) ∅ (by rw [AList.keys_empty, List.append_nil]; exact named n member)
    rw [AList.keys_empty, List.append_nil] at keys
    have range_eq := (iterates n member _ (parsePeers_render _)).trans (keys.trans (others n member))
    exact (range_eq.cons n).trans (List.perm_cons_erase member).symm
  refine ⟨{
    ids := ids
    replicas := fun n => if n ∈ ids then newReplicas n (range n) else ids
    noop := noop
    distinct := distinct
    nonempty := nonempty
    atMost := atMost
    listed := ?_
    encoded := encoded }, rfl, rfl, fun n member =>
      ⟨if_pos member, _, parsePeers_render _, fun part inside => addresses_own _ ∅ (named n member) inside⟩⟩
  intro n
  split
  next member => exact listed n member
  next => exact List.Perm.refl _

/-- The other of two replicas, with a blank in front of it. -/
def samplePeers (n : String) : List Part :=
  [{ before := [' ']
     id := if n = "p" then ['q'] else ['p']
     addr := ['h', ':', '1']
     after := []
     blank := List.forall_mem_singleton.mpr (by decide)
     id_filled := by split <;> decide
     addr_filled := by decide
     id_plain := by split <;> decide
     addr_plain := by decide
     id_begins := by
       intro c first
       split at first
       · cases first
         decide
       · cases first
         decide
     addr_ends := by
       intro c last
       cases last
       decide }]

theorem flags_make_deployment_two : ∃ d : Deployment samplePb, d.ids = ["p", "q"] ∧ d.noop = sampleDeployment.noop ∧
    ∀ n ∈ ["p", "q"], d.replicas n = newReplicas n (if n = "p" then ["q"] else ["p"]) ∧
      ∃ nodes, parsePeers (render (samplePeers n)) = some nodes ∧
        ∀ part ∈ samplePeers n, nodes.lookup part.name = some (String.ofList part.addr) := by
  refine flags_make_deployment samplePb ["p", "q"] sampleDeployment.distinct sampleDeployment.nonempty
    sampleDeployment.atMost sampleDeployment.noop sampleDeployment.encoded samplePeers (by decide)
    (fun n => if n = "p" then ["q"] else ["p"]) ?_
  intro n member nodes parsed
  rw [parsePeers_render, Option.some.injEq] at parsed
  subst parsed
  have two : n = "p" ∨ n = "q" := by simpa using member
  rcases two with rfl | rfl
  · decide
  · decide

end PrefixMesh.Directory
