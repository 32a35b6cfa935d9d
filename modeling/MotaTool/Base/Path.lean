import Mathlib.Data.List.Basic

/-!
# Paths

A path is cut at its separators; empty pieces and dots count for nothing, but
for a dot in front. Joining a name without separators to a directory adds one
component, the name itself. Joining and components are those of Unix paths;
what separates is given for Windows too.
-/

namespace MotaTool.Base.Path

inductive Style
  | unix
  | windows

def Style.isSeparator : Style → Char → Bool
  | .unix, ch => ch == '/'
  | .windows, ch => ch == '/' || ch == '\\'

def SingleComponent (style : Style) (name : List Char) : Prop :=
  ∀ ch ∈ name, style.isSeparator ch = false ∧ ch ≠ '\x00'

theorem Style.isSeparator_ascii {style : Style} {ch : Char} (h : style.isSeparator ch = true) :
    ch.toNat < 128 := by
  have hcase : ch = '/' ∨ ch = '\\' := by
    cases style with
    | unix => exact .inl (beq_iff_eq.mp h)
    | windows => simpa [isSeparator] using h
  rcases hcase with rfl | rfl <;> decide

theorem singleComponent_append {style : Style} {front rest : List Char} :
    SingleComponent style (front ++ rest) ↔
      SingleComponent style front ∧ SingleComponent style rest :=
  List.forall_mem_append

inductive Part
  | root
  | current
  | parent
  | normal (name : List Char)
  deriving DecidableEq

def Part.ofPiece (piece : List Char) : Part :=
  if piece = ['.', '.'] then .parent else .normal piece

def leading (path : List Char) (pieces : List (List Char)) : List Part :=
  if path.head? = some '/' then [.root]
  else if pieces.head? = some ['.'] then [.current] else []

def named (pieces : List (List Char)) : List Part :=
  (pieces.filter fun piece => piece ≠ [] ∧ piece ≠ ['.']).map Part.ofPiece

def components (path : List Char) : List Part :=
  leading path (path.splitOn '/') ++ named (path.splitOn '/')

/-- `Path::join`: an absolute path replaces the directory. -/
def join (dir name : List Char) : List Char :=
  if name.head? = some '/' then name
  else if dir = [] ∨ dir.getLast? = some '/' then dir ++ name
  else dir ++ '/' :: name

structure PlainName (name : List Char) : Prop where
  nonempty : name ≠ []
  not_dot : name ≠ ['.']
  not_parent : name ≠ ['.', '.']
  separator : '/' ∉ name

section Join

variable {name : List Char}

theorem PlainName.named (h : PlainName name) : named (name.splitOn '/') = [.normal name] := by
  rw [List.splitOn_eq_singleton h.separator, Path.named, List.filter_singleton]
  simp [h.nonempty, h.not_dot, Part.ofPiece, h.not_parent]

theorem components_append (front rest : List Char) : components (front ++ '/' :: rest) =
    components (front ++ ['/']) ++ named (rest.splitOn '/') := by
  have hhead : (front ++ '/' :: rest).head? = (front ++ ['/']).head? := by
    cases front with
    | nil => rfl
    | cons ch front => rfl
  have hpieces : ∀ tail : List Char, (front.splitOn '/' ++ tail.splitOn '/').head? =
      (front.splitOn '/').head? := fun tail =>
    List.head?_append_of_ne_nil _ (List.splitOn_ne_nil _ _)
  have hempty : named (([] : List Char).splitOn '/') = [] := rfl
  rw [components, components, List.splitOn_append_cons_self, List.splitOn_append_cons_self,
    leading, leading, hhead, hpieces, hpieces, Path.named, Path.named, List.filter_append,
    List.filter_append, List.map_append, List.map_append, ← Path.named, ← Path.named,
    ← Path.named, hempty, List.append_nil, List.append_assoc]

theorem components_trailing {dir : List Char} (h : dir ≠ []) :
    components (dir ++ ['/']) = components dir := by
  have hempty : Path.named [([] : List Char)] = [] := rfl
  rw [components, components, List.splitOn_append_cons_self, leading, leading,
    List.head?_append_of_ne_nil _ h, List.head?_append_of_ne_nil _ (List.splitOn_ne_nil _ _),
    List.splitOn_nil, Path.named, List.filter_append, List.map_append, ← Path.named,
    ← Path.named, hempty, List.append_nil]

theorem components_join (h : PlainName name) (dir : List Char) :
    components (join dir name) = components dir ++ [.normal name] := by
  have hhead : name.head? ≠ some '/' := fun hhead => h.separator (List.mem_of_mem_head? hhead)
  rw [join, if_neg hhead]
  split_ifs with hends
  · rcases hends with rfl | hends
    · have hpieces := List.splitOn_eq_singleton h.separator
      have hstart : (some name : Option (List Char)) ≠ some ['.'] := by simpa using h.not_dot
      rw [List.nil_append, components, h.named, leading, if_neg hhead, hpieces, List.head?_cons,
        if_neg hstart]
      rfl
    · obtain ⟨front, rfl⟩ : ∃ front, dir = front ++ ['/'] :=
        ⟨_, (List.dropLast_append_getLast? '/' hends).symm⟩
      rw [List.append_assoc, List.singleton_append, components_append, h.named]
  · rw [components_append, components_trailing (fun hnil => hends (.inl hnil)), h.named]

theorem join_injective {other dir : List Char} (hname : '/' ∉ name) (hother : '/' ∉ other)
    (h : join dir name = join dir other) : name = other := by
  have hhead : ∀ {n : List Char}, '/' ∉ n → n.head? ≠ some '/' :=
    fun hn hslash => hn (List.mem_of_mem_head? hslash)
  rw [join, join, if_neg (hhead hname), if_neg (hhead hother)] at h
  split_ifs at h
  · exact List.append_cancel_left h
  · exact (List.cons.inj (List.append_cancel_left h)).2

end Join

end MotaTool.Base.Path
