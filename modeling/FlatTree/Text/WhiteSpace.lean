import FlatTree.Text.CharSet

/-!
# White space

The 25 characters with the property White_Space.
-/

namespace FlatTree.CharSet

/-- Blank characters: the property White_Space. -/
def whiteSpace : CharSet := ⟨[
    (9, 13), (32, 32), (133, 133), (160, 160), (5760, 5760), (8192, 8202), (8232, 8233),
    (8239, 8239), (8287, 8287), (12288, 12288)]⟩

end FlatTree.CharSet
