import Ringbeller.X3.Parser
import Ringbeller.X3.Delimited
import Ringbeller.X3.Actions
import Ringbeller.Asio.Streambuf
import Ringbeller.Asio.ReadUntil
import Ringbeller.Asio.Searches
import Ringbeller.Asio.Retries
import Ringbeller.Asio.Backlog
import Ringbeller.Asio.Write
import Ringbeller.Asio.WriteAgain
import Ringbeller.Framing.Cut
import Ringbeller.Framing.Lines
import Ringbeller.Script.Steps
import Ringbeller.Lib.Message
import Ringbeller.Lib.Grammar
import Ringbeller.Lib.ResponseLanguage
import Ringbeller.Lib.GrammarSpec
import Ringbeller.Lib.MatchCondition
import Ringbeller.Lib.Cuts
import Ringbeller.Lib.ParseResponse
import Ringbeller.Lib.Read
import Ringbeller.Lib.Positions
import Ringbeller.Lib.Outputs
import Ringbeller.Lib.Rendering
import Ringbeller.Lib.Chunking
import Ringbeller.Lib.Conservation
import Ringbeller.Lib.Streams
import Ringbeller.Lib.Retries
import Ringbeller.Lib.Write
import Ringbeller.Lib.AsyncWrite
import Ringbeller.Lib.Echo
import Ringbeller.App.Session
import Ringbeller.App.FailedReads
import Ringbeller.App.ReadLoop
import Ringbeller.App.AtCops
import Ringbeller.App.Sms
import Ringbeller.App.VoiceCall
import Ringbeller.App.Responses
import Ringbeller.App.Exchanges
import Ringbeller.App.EventLoop
import Ringbeller.App.Scenarios
import Ringbeller.App.CallScripts
import Ringbeller.App.Failures
import Ringbeller.App.UsbCfg
import Ringbeller.App.CallLines
import Ringbeller.App.Notifications
import Ringbeller.App.Ringing
import Ringbeller.App.SmsLoop
import Ringbeller.App.SmsText
import Ringbeller.App.Calls
import Ringbeller.App.SendText
import Ringbeller.App.Statuses
import Ringbeller.App.SmsFraming
import Ringbeller.App.Commands
import Ringbeller.App.Bursts
import Ringbeller.App.AsExecute
import Ringbeller.App.Verbs
import Ringbeller.App.Endings
import Ringbeller.App.Console
import Ringbeller.App.Exceptions
import Ringbeller.App.Main
