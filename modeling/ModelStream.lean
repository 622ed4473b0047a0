import ModelStream.Exchange
import ModelStream.Settings
import ModelStream.Transcript
import ModelStream.Proofs.Text.Blank
import ModelStream.Proofs.Text.Utf8
import ModelStream.Proofs.Text.Lossy
import ModelStream.Proofs.Text.Spelling
import ModelStream.Proofs.Text.Offsets
import ModelStream.Proofs.Frame.Lines
import ModelStream.Proofs.Frame.Payload
import ModelStream.Proofs.Frame.Blocks
import ModelStream.Proofs.Frame.Written
import ModelStream.Proofs.Frame.Whole
import ModelStream.Proofs.Session.Playback
import ModelStream.Proofs.Session.Rounds
import ModelStream.Proofs.InlineTag.Segments
import ModelStream.Proofs.InlineTag.Scan
import ModelStream.Proofs.InlineTag.Pieces
import ModelStream.Proofs.InlineTag.Reference
import ModelStream.Proofs.InlineTag.Sound
import ModelStream.Proofs.Ordered
import ModelStream.Proofs.Request
import ModelStream.Proofs.CallBoard
import ModelStream.Proofs.CallBoard.Drain
import ModelStream.Proofs.CallBoard.Fragments
import ModelStream.Proofs.ReasoningBoard
import ModelStream.Proofs.ReasoningBoard.Keys
import ModelStream.Proofs.Transcript
import ModelStream.Proofs.Boards
import ModelStream.Proofs.Decoder.Moves
import ModelStream.Proofs.Session.Terminal
import ModelStream.Proofs.Session.Demand
import ModelStream.Proofs.Session.Malformed
import ModelStream.Proofs.Exchange
import ModelStream.Proofs.Closing
import ModelStream.Proofs.Flush
import ModelStream.Proofs.Decoder.CallIds
import ModelStream.Proofs.Decoder.Ending
import ModelStream.Proofs.Decoder.Refusal
import ModelStream.Proofs.Decoder.Reasoning
import ModelStream.Proofs.Responses.Announced
import ModelStream.Proofs.Responses.Delivery
import ModelStream.Proofs.Responses.Rescan
import ModelStream.Proofs.Responses.Repeated
import ModelStream.Proofs.Responses.Alike
import ModelStream.Proofs.Responses.Opened
import ModelStream.Proofs.Responses.Reasoning
import ModelStream.Proofs.Anthropic.ToolBlocks
import ModelStream.Proofs.Anthropic.Signals
import ModelStream.Proofs.Anthropic.Assembly
import ModelStream.Proofs.Anthropic.Stops
import ModelStream.Proofs.Chat.Channels
import ModelStream.Proofs.InlineTag.Buffer
import ModelStream.Proofs.Decoder.Actionable
import ModelStream.Proofs.Exchange.FailedAnswer
import ModelStream.Proofs.Arguments
