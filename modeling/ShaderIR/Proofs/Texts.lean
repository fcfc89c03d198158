import Mathlib.Algebra.Order.Floor.Div
import ShaderIR.Proofs.Decoding

/-! Texts in a sequence of words. A text is its bytes, four to a word, and at least one zero byte. A
reader that stops at the first zero byte finds its end, and with it where the next operand starts. -/
namespace ShaderIR

namespace Word

end Word

end ShaderIR
